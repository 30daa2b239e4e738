import Ia32.Machine

/-!
# Ends of programs

`Ends x m ok err` says how the program `x` ends on the machine `m`: in an answer
and a machine of which `ok` holds, or in a fault and a machine of which `err`
holds.  A statement about a sequence comes apart into statements about its
parts, so that a program is followed step by step and never unfolded into the
monad.

`value? x m` is the answer alone.  It serves to name what a program would read
off a machine.
-/

namespace Ia32.Exec

variable {H : Type} {α β : Type}

/-- A program ends in an answer of which `ok` holds or in a fault of which `err` holds, each
taken together with the machine that it leaves. -/
def Ends (x : Exec H α) (m : Machine H) (ok : α → Machine H → Prop)
    (err : Fault → Machine H → Prop) : Prop :=
  match x.run m with
  | .ok a m' => ok a m'
  | .error f m' => err f m'

/-- The answer of a program, if it does not fault. -/
def value? (x : Exec H α) (m : Machine H) : Option α :=
  match x.run m with
  | .ok a _ => some a
  | .error _ _ => none

variable {m : Machine H} {ok ok' : α → Machine H → Prop} {err err' : Fault → Machine H → Prop}

/-! ## Laws -/

/-- Less may be asked of either end. -/
theorem Ends.mono {x : Exec H α} (h : Ends x m ok err) (hok : ∀ a m', ok a m' → ok' a m')
    (herr : ∀ f m', err f m' → err' f m') : Ends x m ok' err' := by
  unfold Ends at *
  cases hx : x.run m with
  | ok a m' => simpa [hx] using hok a m' (by simpa [hx] using h)
  | error f m' => simpa [hx] using herr f m' (by simpa [hx] using h)

/-- Nothing need be asked. -/
theorem Ends.always (x : Exec H α) (m : Machine H) :
    Ends x m (fun _ _ => True) fun _ _ => True := by
  unfold Ends
  split <;> trivial

/-- What holds of the same program twice holds of it together. -/
theorem Ends.and {x : Exec H α} (h : Ends x m ok err) (h' : Ends x m ok' err') :
    Ends x m (fun a m' => ok a m' ∧ ok' a m') (fun f m' => err f m' ∧ err' f m') := by
  unfold Ends at *
  cases hx : x.run m with
  | ok a m' => simp only [hx] at h h'; exact ⟨h, h'⟩
  | error f m' => simp only [hx] at h h'; exact ⟨h, h'⟩

/-- The answer of a program is the value that it has. -/
theorem Ends.value {x : Exec H α} (h : Ends x m ok err) :
    Ends x m (fun a m' => value? x m = some a ∧ ok a m') err := by
  unfold Ends at *
  cases hx : x.run m with
  | ok a m' => simp only [hx, value?] at h ⊢; exact ⟨trivial, h⟩
  | error f m' => simpa [hx] using h

/-- The second program starts where the first one has ended. -/
theorem ends_bind {x : Exec H β} {k : β → Exec H α} :
    Ends (x >>= k) m ok err ↔ Ends x m (fun b m' => Ends (k b) m' ok err) err := by
  simp only [Ends, EStateM.run, bind, EStateM.bind]
  cases x m <;> rfl

/-- A program that has a value ends in an answer. -/
theorem Ends.of_value {x : Exec H α} (h : Ends x m ok err) {a : α} (hv : value? x m = some a) :
    ∃ m', ok a m' := by
  unfold Ends at h
  unfold value? at hv
  cases hx : x.run m with
  | ok b m' =>
    simp only [hx, Option.some.injEq] at h hv
    exact ⟨m', hv ▸ h⟩
  | error f m' => simp [hx] at hv

/-- What follows a program decides the value of the sequence. -/
theorem Ends.follow {x : Exec H β} {ok : β → Machine H → Prop} (h : Ends x m ok err)
    (k : β → Exec H α) :
    Ends x m (fun b m' => value? (x >>= k) m = value? (k b) m' ∧ ok b m') err := by
  simp only [Ends, value?, EStateM.run, bind, EStateM.bind] at h ⊢
  cases hx : x m with
  | ok b m' => simp only [hx] at h; exact ⟨rfl, h⟩
  | error f m' => simpa [hx] using h

/-- The value of a program and a function of its answer. -/
theorem value?_map (x : Exec H β) (f : β → α) (m : Machine H) :
    value? (do return f (← x)) m = (value? x m).map f := by
  simp only [value?, EStateM.run, bind, EStateM.bind]
  cases x m <;> rfl

theorem value?_view_bind (f : Processor → β) (k : β → Exec H α) (m : Machine H) :
    value? (view f >>= k) m = value? (k (f m.toProcessor)) m := rfl

/-- A fault that is caught is where the handler starts. -/
theorem ends_tryCatch {x : Exec H α} {k : Fault → Exec H α} :
    Ends (tryCatch x k) m ok err ↔ Ends x m ok (fun f m' => Ends (k f) m' ok err) := by
  simp only [Ends, EStateM.run, tryCatch, tryCatchThe, MonadExceptOf.tryCatch]
  delta EStateM.tryCatch
  cases x m <;> rfl

/-- Each case may use its condition. -/
theorem ends_ite {c : Prop} [Decidable c] {x y : Exec H α} :
    Ends (if c then x else y) m ok err ↔ (c → Ends x m ok err) ∧ (¬c → Ends y m ok err) := by
  by_cases h : c <;> simp [h]

/-! ## Single steps -/

@[simp] theorem ends_pure (a : α) : Ends (pure a) m ok err ↔ ok a m := Iff.rfl

@[simp] theorem ends_throw (f : Fault) : Ends (throw f) m ok err ↔ err f m := Iff.rfl

@[simp] theorem ends_view (f : Processor → α) : Ends (view f) m ok err ↔ ok (f m.toProcessor) m :=
  Iff.rfl

@[simp] theorem ends_get {ok : Machine H → Machine H → Prop} : Ends get m ok err ↔ ok m m := Iff.rfl

@[simp] theorem ends_modify {ok : Unit → Machine H → Prop} (f : Machine H → Machine H) :
    Ends (modify f) m ok err ↔ ok () (f m) := Iff.rfl

@[simp] theorem ends_modifyGet (f : Machine H → α × Machine H) :
    Ends (modifyGet f) m ok err ↔ ok (f m).1 (f m).2 := Iff.rfl

@[simp] theorem ends_update {ok : Unit → Machine H → Prop} (f : Processor → Processor) :
    Ends (update f) m ok err ↔ ok () { m with toProcessor := f m.toProcessor } := Iff.rfl

@[simp] theorem ends_updateWith (f : Processor → α × Processor) :
    Ends (updateWith f) m ok err ↔
      ok (f m.toProcessor).1 { m with toProcessor := (f m.toProcessor).2 } := Iff.rfl

@[simp] theorem ends_note {ok : Unit → Machine H → Prop} (category : Log.Category)
    (level : Log.Level) (message : Machine H → String) :
    Ends (note category level message) m ok err ↔
      ok () { m with log := m.log.write category level fun _ => message m } := Iff.rfl

/-! ## Answers -/

/-- A program that ends in one answer and one machine, and in no fault, runs to these. -/
theorem Ends.run_eq {x : Exec H α} {a : α} {m' : Machine H}
    (hx : Ends x m (fun a' m'' => a' = a ∧ m'' = m') fun _ _ => False) : x.run m = .ok a m' := by
  unfold Ends at hx
  cases hr : x.run m with
  | ok a' m'' =>
    simp only [hr] at hx
    rw [hx.1, hx.2]
  | error f m'' => simp only [hr] at hx

/-- A program has a value when it ends with an answer. -/
theorem value?_eq_some_iff {x : Exec H α} {a : α} :
    value? x m = some a ↔ ∃ m', x.run m = .ok a m' := by
  unfold value?
  cases x.run m <;> simp

/-- A sequence goes on from the answer of its first program. -/
theorem run_bind_of_ok {x : Exec H β} {b : β} {m₁ : Machine H} (hx : x.run m = .ok b m₁)
    (k : β → Exec H α) : (x >>= k).run m = (k b).run m₁ := by
  rw [EStateM.run_bind, hx]

/-- A sequence ends as what follows a program that has run. -/
theorem Ends.of_run {x : Exec H β} {b : β} {m₁ : Machine H} {k : β → Exec H α}
    (hx : x.run m = .ok b m₁) (hk : Ends (k b) m₁ ok err) : Ends (x >>= k) m ok err := by
  unfold Ends
  rw [run_bind_of_ok hx]
  exact hk

/-- A sequence has an answer when both of its parts do. -/
theorem run_bind_eq_ok_iff {x : Exec H β} {k : β → Exec H α} {a : α} {m' : Machine H} :
    (x >>= k).run m = .ok a m' ↔ ∃ b m₁, x.run m = .ok b m₁ ∧ (k b).run m₁ = .ok a m' := by
  rw [EStateM.run_bind]
  cases x.run m with
  | ok b m₁ => exact ⟨fun h => ⟨b, m₁, rfl, h⟩, fun ⟨_, _, h, hk⟩ => by cases h; exact hk⟩
  | error f m₁ => exact ⟨nofun, fun ⟨_, _, h, _⟩ => nomatch h⟩

theorem run_view_bind (f : Processor → β) (k : β → Exec H α) :
    (view f >>= k).run m = (k (f m.toProcessor)).run m := rfl

end Ia32.Exec
