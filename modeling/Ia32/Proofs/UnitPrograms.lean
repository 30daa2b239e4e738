import Ia32.Proofs.FloatStops
import Ia32.Proofs.NumberCopies

/-!
# Programs of the unit

A program that computes with the register stack changes nothing but the unit and
the log.  It comes to its end, or an exception stops it.  `FloatExec.Leaves` says
of which unit this can be, one rule for each way to put programs together, so that
a program is followed from its first line to its last.

An exception that is masked is recorded and the program goes on.  One that is not
sets the summary bits too, and the program stops there (`Fpu.stopped`).
-/

namespace Ia32

variable {H : Type} {α β : Type}

/-! ## Raising -/

namespace Fpu

variable {f : Fpu} {bits : Word}

/-- The unit that an exception leaves that is not masked. -/
def stopped (f : Fpu) (bits : Word) : Fpu :=
  (f.setCondition bits true).setCondition (Status.summary ||| Status.busy) true

/-- A masked exception is recorded and nothing more. -/
theorem raise_of_masked (h : f.unmasked bits = 0) :
    f.raise bits = (false, f.setCondition bits true) := by
  rw [raise, h]
  rfl

/-- An exception that is not masked stops the instruction. -/
theorem raise_of_unmasked (h : f.unmasked bits ≠ 0) : f.raise bits = (true, f.stopped bits) := by
  rw [raise, bne_iff_ne.2 h]
  rfl

/-- What has stopped an instruction is pending. -/
theorem isPending_stopped (f : Fpu) (bits : Word) : (f.stopped bits).isPending = true := by
  rw [isPending, bne_iff_ne]
  change (f.status ||| bits ||| (Status.summary ||| Status.busy)) &&& Status.summary ≠ 0
  rw [BitVec.and_or_distrib_right]
  exact or_ne_zero_right (by decide)

/-- The other bits of the status word stay as they were. -/
theorem stopped_status_and {mask : Word} (hb : bits &&& mask = 0)
    (hm : (Status.summary ||| Status.busy) &&& mask = 0) :
    (f.stopped bits).status &&& mask = f.status &&& mask := by
  rw [stopped, setCondition_status_and hm, setCondition_status_and hb]

theorem unmasked_zero (f : Fpu) : f.unmasked 0 = 0 := by
  exact (congrArg (· &&& Status.exceptions) BitVec.zero_and).trans BitVec.zero_and

/-- A stack fault is as much masked as any invalid operation. -/
theorem unmasked_stackExceptions (f : Fpu) :
    f.unmasked FloatExec.stackExceptions = f.unmasked Exception.invalid := by
  rw [unmasked_eq, unmasked_eq]
  rfl

end Fpu

/-! ## Registers -/

namespace Fpu

variable {f : Fpu} {i j : Nat}

/-- Stack registers less than eight apart are different ones. -/
theorem physical_ne (hij : i < j) (hlt : j < i + 8) : f.physical j ≠ f.physical i := by
  simp only [physical, ne_eq, Fin.ext_iff, Fin.ofNat]
  omega

/-- A store is seen at the register that was written. -/
theorem st_store_self (f : Fpu) (i : Nat) (x : Extended) : (f.store i x).st i = x :=
  Vector.getElem_set_self _

/-- It is not seen elsewhere. -/
theorem st_store_of_ne (h : f.physical j ≠ f.physical i) (x : Extended) :
    (f.store i x).st j = f.st j :=
  Vector.getElem_set_ne (Fin.is_lt _) (Fin.is_lt _) fun heq => h (Fin.ext heq.symm)

theorem tag_store_of_ne (h : f.physical j ≠ f.physical i) (x : Extended) :
    (f.store i x).tag j = f.tag j := by
  change ((f.setSt i x).setTagAt (f.physical i) _).tagAt (f.physical j) = _
  rw [tagAt_setTagAt, if_neg h]
  rfl

/-- Pops move the top and empty registers; the status word stays. -/
theorem isPending_repeat_pop (f : Fpu) (n : Nat) :
    (Nat.repeat pop n f).isPending = f.isPending := by
  induction n with
  | zero => rfl
  | succ n ih => exact ih

theorem status_repeat_pop (f : Fpu) (n : Nat) : (Nat.repeat pop n f).status = f.status := by
  induction n with
  | zero => rfl
  | succ n ih => exact ih

end Fpu

/-! ## Units that hold the same -/

/-- Two units agree in their registers, with the tags and the top, and in the control word. -/
structure Fpu.SameStack (f f' : Fpu) : Prop where
  regs : f'.regs = f.regs
  tags : f'.tags = f.tags
  top : f'.top = f.top
  control : f'.control = f.control

namespace Fpu.SameStack

variable {f f' f'' : Fpu}

theorem refl (f : Fpu) : f.SameStack f := ⟨rfl, rfl, rfl, rfl⟩

theorem trans (h : f.SameStack f') (h' : f'.SameStack f'') : f.SameStack f'' :=
  ⟨h'.regs.trans h.regs, h'.tags.trans h.tags, h'.top.trans h.top, h'.control.trans h.control⟩

theorem setCondition (h : f.SameStack f') (bits : Word) (on : Bool) :
    f.SameStack (f'.setCondition bits on) :=
  ⟨h.regs, h.tags, h.top, h.control⟩

theorem stopped (h : f.SameStack f') (bits : Word) : f.SameStack (f'.stopped bits) :=
  (h.setCondition _ _).setCondition _ _

/-- Registers are counted from the same top. -/
theorem physical_eq (h : f.SameStack f') (i : Nat) : f'.physical i = f.physical i := by
  rw [physical, physical, h.top]

theorem tag_eq (h : f.SameStack f') (i : Nat) : f'.tag i = f.tag i := by
  rw [tag, tag, tagAt, tagAt, h.tags, h.physical_eq]

theorem st_eq (h : f.SameStack f') (i : Nat) : f'.st i = f.st i := by
  simp only [st, h.physical_eq, h.regs]

theorem value_eq (h : f.SameStack f') (i : Nat) : f'.value i = f.value i := by
  rw [value, value, h.tag_eq, h.st_eq]

/-- The same exceptions are masked. -/
theorem unmasked_eq (h : f.SameStack f') (bits : Word) : f'.unmasked bits = f.unmasked bits := by
  rw [unmasked, unmasked, h.control]

/-- Stacks that are the same stay so under a pop, a store and a push. -/
theorem pop (h : f.SameStack f') : f.pop.SameStack f'.pop where
  regs := h.regs
  tags := by
    change (f'.setTagAt (Fin.ofNat 8 (f'.top.toNat + 0)) .empty).tags =
      (f.setTagAt (Fin.ofNat 8 (f.top.toNat + 0)) .empty).tags
    rw [setTagAt, setTagAt, h.tags, h.top]
  top := congrArg (fun top : Byte => (top + 1) &&& 7) h.top
  control := h.control

theorem repeat_pop (h : f.SameStack f') (n : Nat) :
    (Nat.repeat Fpu.pop n f).SameStack (Nat.repeat Fpu.pop n f') := by
  induction n with
  | zero => exact h
  | succ n ih => exact ih.pop

theorem store (h : f.SameStack f') (i : Nat) (x : Extended) :
    (f.store i x).SameStack (f'.store i x) := by
  obtain ⟨regs, control, status, top, tags, _, _, _, _, _⟩ := f
  obtain ⟨regs', control', status', top', tags', _, _, _, _, _⟩ := f'
  obtain ⟨rfl, rfl, rfl, rfl⟩ := h
  exact ⟨rfl, rfl, rfl, rfl⟩

theorem pushNumber (h : f.SameStack f') (x : Extended) :
    (f.pushNumber x).SameStack (f'.pushNumber x) :=
  have hpush : f.push.SameStack f'.push :=
    ⟨h.regs, h.tags, congrArg (fun top : Byte => (top - 1) &&& 7) h.top, h.control⟩
  hpush.store 0 x

/-- The pointers to the last instruction are not part of the stack. -/
theorem remembering (h : f.SameStack f') (offset : Dword) (selector opcode : Word) :
    f.SameStack (f'.remembering offset selector opcode) :=
  ⟨h.regs, h.tags, h.top, h.control⟩

end Fpu.SameStack

/-- Nor is the status word. -/
theorem Fpu.sameStack_setCondition (f : Fpu) (bits : Word) (on : Bool) :
    f.SameStack (f.setCondition bits on) :=
  (SameStack.refl f).setCondition bits on

namespace FloatExec

/-! ## The judgement -/

/-- A program changes nothing but the unit and the log.  It comes to its end with an answer and a
unit of which `ok` holds, or it is stopped and leaves a unit of which `stop` holds. -/
def Leaves (x : FloatExec H α) (c : Config) (f : Fpu) (ok : α → Fpu → Prop) (stop : Fpu → Prop) :
    Prop :=
  ∀ m : Machine H, m.config = c → m.fpu = f → ∃ f' log,
    (∃ a, x.Runs m a { m with fpu := f', log := log } ∧ ok a f') ∨
      (EStateM.run x.run m = .ok none { m with fpu := f', log := log } ∧ stop f')

namespace Leaves

variable {x y : FloatExec H α} {c : Config} {f : Fpu} {p : Prefixes} {ok ok' : α → Fpu → Prop}
  {stop stop' : Fpu → Prop}

/-- Less may be said of either end. -/
theorem mono (h : Leaves x c f ok stop) (hok : ∀ a f', ok a f' → ok' a f')
    (hstop : ∀ f', stop f' → stop' f') : Leaves x c f ok' stop' := by
  intro m hc hf
  obtain ⟨f', log, ⟨a, hrun, ha⟩ | ⟨hrun, hs⟩⟩ := h m hc hf
  · exact ⟨f', log, .inl ⟨a, hrun, hok a f' ha⟩⟩
  · exact ⟨f', log, .inr ⟨hrun, hstop f' hs⟩⟩

theorem pure {a : α} (h : ok a f) : Leaves (Pure.pure a : FloatExec H α) c f ok stop := by
  rintro m - rfl
  exact ⟨m.fpu, m.log, .inl ⟨a, .pure a m, h⟩⟩

/-- The second program starts from a unit that the first may leave.  Where the first is stopped,
the second is not run. -/
theorem bind {x : FloatExec H β} {k : β → FloatExec H α}
    (h : Leaves x c f (fun b f' => Leaves (k b) c f' ok stop) stop) :
    Leaves (x >>= k) c f ok stop := by
  intro m hc hf
  obtain ⟨f₁, log₁, ⟨b, hrun, hk⟩ | ⟨hrun, hs⟩⟩ := h m hc hf
  · obtain ⟨f', log, ⟨a, hrun', ha⟩ | ⟨hrun', hs⟩⟩ :=
      hk { m with fpu := f₁, log := log₁ } hc rfl
    · exact ⟨f', log, .inl ⟨a, .bind hrun hrun', ha⟩⟩
    · refine ⟨f', log, .inr ⟨?_, hs⟩⟩
      rw [OptionT.run_bind]
      exact (Exec.run_bind_of_ok hrun _).trans hrun'
  · refine ⟨f₁, log₁, .inr ⟨?_, hs⟩⟩
    rw [OptionT.run_bind]
    exact Exec.run_bind_of_ok hrun _

/-- What is read is the unit at that point. -/
theorem view {g : Fpu → β} {k : β → FloatExec H α} (h : Leaves (k (g f)) c f ok stop) :
    Leaves (FloatExec.view g >>= k) c f ok stop := by
  refine .bind ?_
  rintro m hc rfl
  exact ⟨m.fpu, m.log, .inl ⟨_, .view g m, h⟩⟩

theorem update {g : Fpu → Fpu} {ok : Unit → Fpu → Prop} (h : ok () (g f)) :
    Leaves (FloatExec.update g : FloatExec H Unit) c f ok stop := by
  rintro m - rfl
  exact ⟨g m.fpu, m.log, .inl ⟨(), .update g m, h⟩⟩

/-- Each case may use its condition. -/
theorem ite {p : Prop} [Decidable p] (hx : p → Leaves x c f ok stop)
    (hy : ¬p → Leaves y c f ok stop) : Leaves (if p then x else y) c f ok stop := by
  by_cases h : p
  · rw [if_pos h]
    exact hx h
  · rw [if_neg h]
    exact hy h

/-- What the configuration decides. -/
theorem config {k : Machine H → FloatExec H α} {d : Config → FloatExec H α}
    (hk : ∀ m, k m = d m.config) (h : Leaves (d c) c f ok stop) :
    Leaves (((get : Exec H (Machine H)) : FloatExec H (Machine H)) >>= k) c f ok stop := by
  rintro m rfl hf
  obtain ⟨f', log, ⟨a, hrun, ha⟩ | ⟨hrun, hs⟩⟩ := h m rfl hf
  · refine ⟨f', log, .inl ⟨a, .bind (.lift (rfl : EStateM.run get m = .ok m m)) ?_, ha⟩⟩
    rw [hk]
    exact hrun
  · refine ⟨f', log, .inr ⟨?_, hs⟩⟩
    rw [run_lift_bind, Exec.run_bind_of_ok (rfl : EStateM.run get m = .ok m m), hk]
    exact hrun

/-- An exception is recorded, or the program is stopped. -/
theorem raise {bits : Word} {ok : Unit → Fpu → Prop}
    (hmasked : f.unmasked bits = 0 → ok () (f.setCondition bits true))
    (hunmasked : f.unmasked bits ≠ 0 → stop (f.stopped bits)) :
    Leaves (FloatExec.raise p bits : FloatExec H Unit) c f ok stop := by
  rintro m - rfl
  have hrecord : (record bits : Exec H Bool).run m =
      .ok (m.fpu.raise bits).1 { m with fpu := (m.fpu.raise bits).2 } :=
    rfl
  by_cases h : m.fpu.unmasked bits = 0
  · rw [Fpu.raise_of_masked h] at hrecord
    exact ⟨_, m.log, .inl ⟨(), .bind (.lift hrecord) (.pure () _), hmasked h⟩⟩
  · rw [Fpu.raise_of_unmasked h] at hrecord
    refine ⟨m.fpu.stopped bits, m.log.write .fpu .debug fun _ => stopMessage p bits
      (m.fpu.stopped bits), .inr ⟨?_, hunmasked h⟩⟩
    rw [FloatExec.raise, run_lift_bind, Exec.run_bind_of_ok hrecord]
    rfl

end Leaves

end FloatExec

end Ia32
