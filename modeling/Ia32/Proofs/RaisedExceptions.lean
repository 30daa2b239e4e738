import Ia32.Proofs.StackResponses

/-!
# Exceptions that a program raises

Most instructions of the unit raise their exceptions before they change the register
stack.  Then the exceptions decide how the program goes on.  If all of them are masked they are
recorded, and the program comes to its end.  If one is not, it is stopped with
the stack as it was, and nothing but these exceptions is recorded
(`FloatExec.Raises`).

The exceptions of programs one after the other add up, and what comes after the last exception
may change the stack as it likes.
-/

namespace Ia32

variable {H : Type} {α β : Type} {c : Config} {f g : Fpu} {p : Prefixes} {bits bits' : Word}

/-! ## Ends -/

namespace Fpu

/-- A program has come to its end in spite of some exceptions. -/
structure Survives (bits : Word) (f f' : Fpu) : Prop where
  masked : f.unmasked bits = 0
  pending : f'.isPending = f.isPending
  exceptions : f'.status &&& Status.exceptions = (f.status ||| bits) &&& Status.exceptions

/-- A program was stopped by one of some exceptions. -/
structure StoppedBy (bits : Word) (f f' : Fpu) : Prop where
  unmasked : f.unmasked bits ≠ 0
  pending : f'.isPending = true
  stack : f.SameStack f'
  /-- No other exception is recorded. -/
  others : ∀ mask, mask &&& ~~~Status.exceptions = 0 → bits &&& mask = 0 →
    f'.status &&& mask = f.status &&& mask

/-- Words that agree in some bits agree in fewer of them. -/
theorem and_congr_of_within {a b mask mask' : Word} (h : a &&& mask = b &&& mask)
    (hm : mask' &&& ~~~mask = 0) : a &&& mask' = b &&& mask' := by
  have hin : mask &&& mask' = mask' := by
    apply BitVec.eq_of_getLsbD_eq
    intro i hi
    have hbit : (mask' &&& ~~~mask).getLsbD i = false := by
      rw [hm]
      exact BitVec.getLsbD_zero
    rw [BitVec.getLsbD_and, BitVec.getLsbD_not, decide_eq_true hi] at hbit
    rw [BitVec.getLsbD_and]
    cases hmask : mask.getLsbD i <;> simp_all
  rw [← hin, ← BitVec.and_assoc, h, BitVec.and_assoc]

/-- A change of the status word that concerns no exception. -/
def SameExceptions (f f' : Fpu) : Prop :=
  f'.status &&& (Status.exceptions ||| Status.summary) =
    f.status &&& (Status.exceptions ||| Status.summary)

theorem SameExceptions.survives (h : f.SameExceptions g) : f.Survives 0 g where
  masked := f.unmasked_zero
  pending := by
    have hsummary : g.status &&& Status.summary = f.status &&& Status.summary :=
      and_congr_of_within h (by decide)
    rw [isPending, isPending, hsummary]
  exceptions := by
    have hor : f.status ||| 0 = f.status := BitVec.or_zero
    rw [hor]
    exact and_congr_of_within h (by decide)

theorem SameExceptions.setCondition (h : f.SameExceptions g)
    (hb : bits &&& (Status.exceptions ||| Status.summary) = 0) (on : Bool) :
    f.SameExceptions (g.setCondition bits on) :=
  (setCondition_status_and hb on).trans h

theorem sameExceptions_setCondition (f : Fpu)
    (hb : bits &&& (Status.exceptions ||| Status.summary) = 0) (on : Bool) :
    f.SameExceptions (f.setCondition bits on) :=
  SameExceptions.setCondition rfl hb on

theorem sameExceptions_readied (f : Fpu) : f.SameExceptions f.readied :=
  f.sameExceptions_setCondition (by decide) false

namespace Survives

theorem status_and (h : f.Survives bits g) {mask : Word}
    (hm : mask &&& ~~~Status.exceptions = 0) (hb : bits &&& mask = 0) :
    g.status &&& mask = f.status &&& mask :=
  (and_congr_of_within h.exceptions hm).trans (or_and_eq_left hb)

/-- The exceptions of two programs add up. -/
theorem trans {f' : Fpu} (h : f.Survives bits g) (hcontrol : g.control = f.control)
    (h' : g.Survives bits' f') : f.Survives (bits ||| bits') f' where
  masked := by
    have hmasked : f.unmasked bits' = 0 := by
      rw [unmasked, ← hcontrol]
      exact h'.masked
    rw [unmasked_or, h.masked, hmasked]
    exact BitVec.or_zero
  pending := h'.pending.trans h.pending
  exceptions := by
    rw [h'.exceptions, BitVec.and_or_distrib_right, h.exceptions, ← BitVec.and_or_distrib_right,
      BitVec.or_assoc]

end Survives

theorem StoppedBy.or_left (h : f.StoppedBy bits g) (bits' : Word) :
    f.StoppedBy (bits ||| bits') g where
  unmasked := by
    rw [unmasked_or]
    exact or_ne_zero_left h.unmasked
  pending := h.pending
  stack := h.stack
  others mask hm hb := by
    rw [BitVec.and_or_distrib_right] at hb
    exact h.others mask hm (BitVec.or_eq_zero_iff.1 hb).1

/-- A program that is stopped after another one has come to its end. -/
theorem Survives.stoppedBy {f' : Fpu} (h : f.Survives bits g) (hstack : f.SameStack g)
    (h' : g.StoppedBy bits' f') : f.StoppedBy (bits ||| bits') f' where
  unmasked := by
    have hne := h'.unmasked
    rw [hstack.unmasked_eq] at hne
    rw [unmasked_or]
    exact or_ne_zero_right hne
  pending := h'.pending
  stack := hstack.trans h'.stack
  others mask hm hb := by
    rw [BitVec.and_or_distrib_right] at hb
    have hzero := BitVec.or_eq_zero_iff.1 hb
    exact (h'.others mask hm hzero.2).trans (h.status_and hm hzero.1)

end Fpu

namespace FloatExec

theorem raiseIfAmong_zero (p : Prefixes) (bit : Word) :
    (raiseIfAmong p 0 bit : FloatExec H Unit) = pure () :=
  if_pos BitVec.zero_and

theorem raiseAfter_zero (p : Prefixes) : (raiseAfter p 0 : FloatExec H Unit) = pure () :=
  raiseEach_zero p _

/-! ## The judgement -/

/-- A program raises some exceptions.  If they are masked it comes to its end with a result. -/
def Raises (x : FloatExec H α) (c : Config) (f : Fpu) (bits : Word) (result : α → Fpu → Prop) :
    Prop :=
  Leaves x c f (fun a f' => f.Survives bits f' ∧ result a f') (f.StoppedBy bits)

namespace Raises

variable {x y : FloatExec H α} {result result' : α → Fpu → Prop}

theorem mono (h : Raises x c f bits result) (hr : ∀ a f', result a f' → result' a f') :
    Raises x c f bits result' :=
  Leaves.mono h (fun a f' h' => ⟨h'.1, hr a f' h'.2⟩) fun _ => id

theorem pure {a : α} (h : result a f) : Raises (Pure.pure a : FloatExec H α) c f 0 result :=
  Leaves.pure ⟨Fpu.SameExceptions.survives rfl, h⟩

theorem view {look : Fpu → β} {k : β → FloatExec H α} (h : Raises (k (look f)) c f bits result) :
    Raises (FloatExec.view look >>= k) c f bits result :=
  Leaves.view h

/-- Programs one after the other, where the first one leaves the stack as it is. -/
theorem bind {x : FloatExec H β} {k : β → FloatExec H α} {first : β → Fpu → Prop}
    (hx : Raises x c f bits first) (hstack : ∀ b g, first b g → f.SameStack g)
    (hk : ∀ b g, first b g → Raises (k b) c g bits' result) :
    Raises (x >>= k) c f (bits ||| bits') result := by
  refine Leaves.bind (Leaves.mono hx ?_ fun _ hs => hs.or_left bits')
  rintro b g ⟨hsurvives, hb⟩
  refine Leaves.mono (hk b g hb) ?_ fun f' hs => hsurvives.stoppedBy (hstack b g hb) hs
  rintro a f' ⟨hsurvives', ha⟩
  exact ⟨hsurvives.trans (hstack b g hb).control hsurvives', ha⟩

/-- The same for a program that does nothing but raise exceptions. -/
theorem andThen {x : FloatExec H Unit} {k : Unit → FloatExec H α}
    (hx : Raises x c f bits fun _ g => f.SameStack g)
    (hk : ∀ g, f.SameStack g → Raises (k ()) c g bits' result) :
    Raises (x >>= k) c f (bits ||| bits') result :=
  bind hx (fun _ _ => id) fun _ g hg => hk g hg

/-- What comes after the last exception. -/
theorem last {x : FloatExec H β} {k : β → FloatExec H α} {first : β → Fpu → Prop}
    (hx : Raises x c f bits first) (hk : ∀ b g, first b g → Raises (k b) c g 0 result) :
    Raises (x >>= k) c f bits result := by
  refine Leaves.bind (Leaves.mono hx ?_ fun _ => id)
  rintro b g ⟨hsurvives, hb⟩
  -- Where nothing is raised nothing is unmasked, so that the second program is not stopped.
  refine Leaves.mono (hk b g hb) ?_ fun f' hs => absurd g.unmasked_zero hs.unmasked
  rintro a f' ⟨hsurvives', ha⟩
  refine ⟨⟨hsurvives.masked, hsurvives'.pending.trans hsurvives.pending, ?_⟩, ha⟩
  rw [hsurvives'.exceptions, ← hsurvives.exceptions]
  exact congrArg (· &&& Status.exceptions) BitVec.or_zero

/-- A change of the unit that concerns no exception. -/
theorem update {result : Unit → Fpu → Prop} {change : Fpu → Fpu}
    (hchange : f.SameExceptions (change f)) (h : result () (change f)) :
    Raises (FloatExec.update change : FloatExec H Unit) c f 0 result :=
  Leaves.update ⟨hchange.survives, h⟩

theorem raise (hb : bits &&& Status.summary = 0) :
    Raises (FloatExec.raise p bits : FloatExec H Unit) c f bits fun _ g => f.SameStack g := by
  refine Leaves.raise (fun hmasked => ?_) fun hunmasked => ?_
  · exact ⟨⟨hmasked, f.isPending_setCondition hb true, rfl⟩, f.sameStack_setCondition bits true⟩
  · refine ⟨hunmasked, f.isPending_stopped bits, (Fpu.SameStack.refl f).stopped bits, ?_⟩
    intro mask hm hmask
    refine Fpu.stopped_status_and hmask ?_
    rw [BitVec.and_comm]
    exact Fpu.and_eq_zero_of_within hm (by decide)

/-! ### Checks -/

/-- Exceptions that are raised on a condition. -/
theorem raiseIf {q : Prop} [Decidable q] {x : FloatExec H Unit}
    (hx : Raises x c f bits fun _ g => f.SameStack g) :
    Raises (if q then x else Pure.pure ()) c f (if q then bits else 0)
      fun _ g => f.SameStack g := by
  split
  · exact hx
  · exact pure (.refl f)

/-- The same in front of other programs. -/
theorem raiseWhen {q : Prop} [Decidable q] {x : FloatExec H Unit} {k : Unit → FloatExec H α}
    (hx : Raises x c f bits fun _ g => f.SameStack g)
    (hk : ∀ g, f.SameStack g → Raises (k ()) c g bits' result) :
    Raises (if q then x >>= k else k ()) c f ((if q then bits else 0) ||| bits') result := by
  have hif : (if q then x >>= k else k ()) = (if q then x else Pure.pure ()) >>= k := by
    split <;> simp only [pure_bind]
  rw [hif]
  exact (raiseIf hx).andThen hk

/-- The same when nothing more is raised. -/
theorem raiseLastWhen {q : Prop} [Decidable q] {x : FloatExec H Unit} {k : Unit → FloatExec H α}
    (hx : Raises x c f bits fun _ g => f.SameStack g)
    (hk : ∀ g, f.SameStack g → Raises (k ()) c g 0 result) :
    Raises (if q then x >>= k else k ()) c f (if q then bits else 0) result := by
  have hall : (if q then bits else 0) = (if q then bits else 0) ||| 0 := BitVec.or_zero.symm
  rw [hall]
  exact raiseWhen hx hk

theorem checkDenormal (x : Extended) :
    Raises (FloatExec.checkDenormal p x : FloatExec H Unit) c f
      (if x.isDenormal then Exception.denormal else 0) fun _ g => f.SameStack g :=
  raiseIf (raise (by decide))

/-- Registers that are not empty raise nothing. -/
theorem requireFull {k : Unit → FloatExec H α} {i : Nat} (hfull : f.tag i ≠ .empty)
    (hk : Raises (k ()) c f bits result) :
    Raises (FloatExec.requireFull p i >>= k) c f bits result := by
  refine Leaves.bind (.view ?_)
  rw [if_neg hfull]
  exact .pure hk

/-- Room for one more register raises nothing. -/
theorem requireRoom {k : Unit → FloatExec H α} (hroom : f.tag 7 = .empty)
    (hk : Raises (k ()) c f bits result) :
    Raises (FloatExec.requireRoom p >>= k) c f bits result := by
  refine Leaves.bind (.view ?_)
  rw [if_neg (not_not.2 hroom)]
  exact .pure hk

/-- An inexact result clears condition one. -/
theorem raiseAfter_precision :
    Raises (raiseAfter p Exception.precision : FloatExec H Unit) c f Exception.precision
      fun _ g => f.SameStack g := by
  have hraise : (raiseAfter p Exception.precision : FloatExec H Unit) =
      FloatExec.update (·.setCondition Status.c1 false) >>= fun _ =>
        FloatExec.raise p Exception.precision >>= Pure.pure := rfl
  have hclear : Raises (FloatExec.update (·.setCondition Status.c1 false) : FloatExec H Unit) c f 0
      fun _ g => f.SameStack g :=
    update (f.sameExceptions_setCondition (by decide) false) (f.sameStack_setCondition _ _)
  have hall : Exception.precision = 0 ||| Exception.precision := rfl
  rw [hraise, bind_pure, hall]
  exact hclear.andThen fun g hg => (raise (by decide)).mono fun _ _ hg' => hg.trans hg'

/-! ### Results -/

/-- A result that raises nothing is written. -/
theorem storeExact (i : Nat) {r : Rounded} (hr : r.exceptions = 0) :
    Raises (storeResult p i r : FloatExec H Unit) c f 0 fun _ g => g = f.store i r.value := by
  have hwrite : Raises (FloatExec.update (·.store i r.value) : FloatExec H Unit) c f 0
      fun _ g => g = f.store i r.value := update rfl rfl
  unfold storeResult
  refine hwrite.last ?_
  rintro _ g rfl
  rw [hr, raiseAfter_zero]
  exact pure rfl

theorem popIf (pops : Bool) :
    Raises (FloatExec.popIf pops : FloatExec H Unit) c f 0 fun _ g => g = f.poppedIf pops := by
  cases pops with
  | false => exact pure rfl
  | true => exact update rfl rfl

end Raises

end FloatExec

/-! ## Steps -/

namespace Fpu

variable {f' : Fpu}

/-- A program that begins with condition one clear, and whose instruction is remembered. -/
theorem Survives.of_readied (h : f.readied.Survives bits f') (offset : Dword)
    (selector opcode : Word) : f.Survives bits (f'.remembering offset selector opcode) := by
  have hall : f.Survives (0 ||| bits) f' := f.sameExceptions_readied.survives.trans rfl h
  have hzero : 0 ||| bits = bits := BitVec.zero_or
  rw [hzero] at hall
  exact ⟨hall.masked, hall.pending, hall.exceptions⟩

theorem StoppedBy.of_readied (h : f.readied.StoppedBy bits f') (offset : Dword)
    (selector opcode : Word) : f.StoppedBy bits (f'.remembering offset selector opcode) := by
  have hall : f.StoppedBy (0 ||| bits) f' :=
    f.sameExceptions_readied.survives.stoppedBy f.sameStack_readied h
  have hzero : 0 ||| bits = bits := BitVec.zero_or
  rw [hzero] at hall
  exact ⟨hall.unmasked, hall.pending, hall.stack.remembering _ _ _, hall.others⟩

end Fpu

section Steps

open Host Exec

variable [Host H] {m : Machine H} {start : FloatStart}

/-- A step whose instruction raises exceptions. -/
theorem Machine.Ready.step_of_raises (h : m.Ready start) {result : Unit → Fpu → Prop}
    (hx : (start.program : FloatExec H Unit).Raises m.config m.fpu.readied bits result) :
    m.step.1 = .completed ∧
      ((m.fpu.Survives bits m.step.2.fpu ∧ ∃ f', result () f' ∧ f'.SameStack m.step.2.fpu) ∨
        m.fpu.StoppedBy bits m.step.2.fpu) := by
  obtain ⟨eip, log, f', offset, selector, opcode, hstep, hend⟩ := h.step_of_leaves hx
  rw [hstep]
  refine ⟨rfl, hend.imp ?_ fun hs => hs.of_readied offset selector opcode⟩
  rintro ⟨hsurvives, hresult⟩
  exact ⟨hsurvives.of_readied offset selector opcode, f', hresult,
    (Fpu.SameStack.refl f').remembering _ _ _⟩

end Steps

end Ia32
