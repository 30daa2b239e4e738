import Ia32.Proofs.FloatStarts

/-!
# Checks of the stack

A program of the unit checks the registers before it computes anything: those that it
reads are not to be empty, and there has to be room for what it pushes.  Both checks raise an
invalid operation with a stack fault, and condition one tells them apart
(`Fpu.Faulted`).

What comes after the checks may raise exceptions of its own, but it takes back no
stack fault, and it leaves condition one as it is (`FloatExec.Answers`).  So what is said of the
checks holds when the program ends (`FloatExec.Handles`).
-/

namespace Ia32

open Host Exec

variable {H : Type} {α β : Type} {c : Config} {p : Prefixes} {f g : Fpu} {kept bits : Word}
  {result : α → Fpu → Prop}

/-! ## Status words -/

namespace Fpu

variable {g' : Fpu}

/-- A change of the unit takes back no stack fault, and it leaves some bits of the status word as
they are. -/
structure Keeps (kept : Word) (f f' : Fpu) : Prop where
  recorded : f.status &&& FloatExec.stackExceptions = FloatExec.stackExceptions →
    f'.status &&& FloatExec.stackExceptions = FloatExec.stackExceptions
  same : f'.status &&& kept = f.status &&& kept

namespace Keeps

theorem of_status_eq (h : g.status = f.status) : Keeps kept f g := by
  constructor <;> rw [h]
  exact id

theorem refl (f : Fpu) : Keeps kept f f := of_status_eq rfl

theorem trans (h : Keeps kept f g) (h' : Keeps kept g g') : Keeps kept f g' :=
  ⟨fun hf => h'.recorded (h.recorded hf), h'.same.trans h.same⟩

theorem set (f : Fpu) (hb : bits &&& kept = 0) : Keeps kept f (f.setCondition bits true) where
  recorded hf := by
    change (f.status ||| bits) &&& _ = _
    rw [BitVec.and_or_distrib_right, hf]
    apply BitVec.eq_of_getLsbD_eq
    intro i _
    simp only [BitVec.getLsbD_or, BitVec.getLsbD_and]
    cases FloatExec.stackExceptions.getLsbD i <;> simp
  same := setCondition_status_and hb true

theorem clear (f : Fpu) (hb : bits &&& FloatExec.stackExceptions = 0) (hkept : bits &&& kept = 0) :
    Keeps kept f (f.setCondition bits false) where
  recorded hf := (setCondition_status_and hb false).trans hf
  same := setCondition_status_and hkept false

theorem stopped (f : Fpu) (hb : bits &&& kept = 0)
    (hkept : (Status.summary ||| Status.busy) &&& kept = 0) : Keeps kept f (f.stopped bits) :=
  (set f hb).trans (set _ hkept)

end Keeps

/-- A change of the unit that leaves no new exception pending. -/
abbrev Proceeds (kept : Word) (f f' : Fpu) : Prop := Keeps (kept ||| Status.summary) f f'

/-- A change of the unit by an exception that is not masked. -/
structure Halts (kept : Word) (f f' : Fpu) : Prop where
  keeps : Keeps kept f f'
  pending : f'.isPending = true
  unmasked : ¬f.IsMaskingAll

theorem Keeps.weaken {kept' : Word} (h : Keeps (kept ||| kept') f g) : Keeps kept f g where
  recorded := h.recorded
  same := by
    apply BitVec.eq_of_getLsbD_eq
    intro i hi
    have hbit := congrArg (BitVec.getLsbD · i) h.same
    simp only [BitVec.getLsbD_and, BitVec.getLsbD_or] at hbit ⊢
    cases hk : kept.getLsbD i <;> simp_all

theorem Proceeds.isPending_eq (h : Proceeds kept f g) : g.isPending = f.isPending := by
  have hsummary : Keeps (Status.summary ||| kept) f g := by rwa [BitVec.or_comm]
  rw [isPending, isPending, hsummary.weaken.same]

theorem SameStack.isMaskingAll_iff (h : f.SameStack g) : g.IsMaskingAll ↔ f.IsMaskingAll := by
  rw [IsMaskingAll, IsMaskingAll, h.control]

theorem Proceeds.halts (h : Proceeds kept f g) (hs : g.control = f.control)
    (h' : Halts kept g g') : Halts kept f g' where
  keeps := h.weaken.trans h'.keeps
  pending := h'.pending
  unmasked := by
    have := h'.unmasked
    rwa [IsMaskingAll, hs] at this

end Fpu

/-! ## What follows the checks -/

namespace FloatExec

/-- A program takes back no stack fault.  It comes to its end with a result, or it is stopped by an
exception that is not masked. -/
def Answers (x : FloatExec H α) (c : Config) (kept : Word) (g : Fpu) (result : α → Fpu → Prop) :
    Prop :=
  Leaves x c g (fun a f' => g.Proceeds kept f' ∧ result a f') (g.Halts kept)

namespace Answers

/-- What comes after a change of the unit, seen from before it. -/
theorem after {x : FloatExec H α} {g₁ : Fpu} (h : g.Proceeds kept g₁)
    (hcontrol : g₁.control = g.control) (hx : Answers x c kept g₁ result) :
    Leaves x c g₁ (fun a f' => g.Proceeds kept f' ∧ result a f') (g.Halts kept) :=
  hx.mono (fun _ _ h' => ⟨h.trans h'.1, h'.2⟩) fun _ h' => h.halts hcontrol h'

theorem pure {a : α} (h : result a g) :
    Answers (Pure.pure a : FloatExec H α) c kept g result :=
  Leaves.pure ⟨.refl g, h⟩

theorem view {look : Fpu → β} {k : β → FloatExec H α} (h : Answers (k (look g)) c kept g result) :
    Answers (FloatExec.view look >>= k) c kept g result :=
  Leaves.view h

theorem ite {q : Prop} [Decidable q] {x y : FloatExec H α} (hx : q → Answers x c kept g result)
    (hy : ¬q → Answers y c kept g result) : Answers (if q then x else y) c kept g result :=
  Leaves.ite hx hy

/-- A change that concerns no exception. -/
theorem update {k : Unit → FloatExec H α} {change : Fpu → Fpu}
    (hchange : g.Proceeds kept (change g)) (hcontrol : (change g).control = g.control)
    (hk : Answers (k ()) c kept (change g) result) :
    Answers (FloatExec.update change >>= k) c kept g result :=
  Leaves.bind (.update (after hchange hcontrol hk))

/-- A change that concerns no exception and comes last. -/
theorem updateLast {result : Unit → Fpu → Prop} {change : Fpu → Fpu}
    (hchange : g.Proceeds kept (change g)) (h : result () (change g)) :
    Answers (FloatExec.update change : FloatExec H Unit) c kept g result :=
  Leaves.update ⟨hchange, h⟩

/-- A program that ends with its last part. -/
theorem last {x : FloatExec H α} (h : Answers (x >>= Pure.pure) c kept g result) :
    Answers x c kept g result := by
  rwa [bind_pure] at h

/-- An exception that may stop the program. -/
theorem raise {k : Unit → FloatExec H α} (hb : bits &&& (kept ||| Status.summary) = 0)
    (hsummary : (Status.summary ||| Status.busy) &&& kept = 0)
    (hk : Answers (k ()) c kept (g.setCondition bits true) result) :
    Answers (FloatExec.raise p bits >>= k) c kept g result := by
  have hkept : bits &&& kept = 0 := by
    rw [BitVec.and_or_distrib_left] at hb
    exact (BitVec.or_eq_zero_iff.1 hb).1
  refine Leaves.bind (.raise (fun _ => after (.set g hb) rfl hk) fun hne => ?_)
  exact ⟨.stopped g hkept hsummary, g.isPending_stopped bits, fun hm => hne (hm.unmasked_eq bits)⟩

theorem store {k : Unit → FloatExec H α} {i : Nat} {x : Extended}
    (hk : Answers (k ()) c kept (g.store i x) result) :
    Answers (FloatExec.update (·.store i x) >>= k) c kept g result :=
  update (.of_status_eq rfl) rfl hk

end Answers

/-! ## Exceptions of operands and results -/

/-- An exception, if the rest depends on nothing but the stack and condition one. -/
theorem raise_answers {k : Unit → FloatExec H α}
    (hb : bits &&& (Status.c1 ||| Status.summary) = 0)
    (hk : ∀ g', g.SameStack g' → g'.status &&& Status.c1 = g.status &&& Status.c1 →
      Answers (k ()) c Status.c1 g' result) :
    Answers (raise p bits >>= k) c Status.c1 g result :=
  have hset : g.Proceeds Status.c1 (g.setCondition bits true) := .set g hb
  .raise hb (by decide) (hk _ (g.sameStack_setCondition bits true) hset.weaken.same)

/-- The exceptions of a result that is a NaN. -/
def IsNanException (exceptions : Word) : Prop := exceptions = 0 ∨ exceptions = Exception.invalid

variable {exceptions : Word}

theorem raiseAfter_answers {k : Unit → FloatExec H α} (he : IsNanException exceptions)
    (hk : ∀ g', g.SameStack g' → Answers (k ()) c Status.c1 g' result) :
    Answers (raiseAfter p exceptions >>= k) c Status.c1 g result := by
  rcases he with rfl | rfl
  · rw [raiseAfter, raiseEach_zero, pure_bind]
    exact hk g (.refl g)
  · have hinvalid : (raiseAfter p Exception.invalid : FloatExec H Unit) =
        raise p Exception.invalid >>= fun _ => pure () := rfl
    rw [hinvalid, bind_pure]
    exact raise_answers (by decide) fun g' hg' _ => hk g' hg'

/-- A result that is a NaN is written. -/
theorem storeResult_answers {k : Unit → FloatExec H α} {i : Nat} {r : Rounded}
    (he : IsNanException r.exceptions)
    (hk : ∀ g', (g.store i r.value).SameStack g' → Answers (k ()) c Status.c1 g' result) :
    Answers (storeResult p i r >>= k) c Status.c1 g result := by
  unfold storeResult
  rw [bind_assoc]
  exact .store (raiseAfter_answers he hk)

theorem checkDenormal_answers {k : Unit → FloatExec H α} (x : Extended)
    (hk : ∀ g', g.SameStack g' → g'.status &&& Status.c1 = g.status &&& Status.c1 →
      Answers (k ()) c Status.c1 g' result) :
    Answers (checkDenormal p x >>= k) c Status.c1 g result := by
  unfold checkDenormal
  split
  · exact raise_answers (by decide) hk
  · rw [pure_bind]
    exact hk g (.refl g) rfl

theorem checkDivisor_answers {k : Unit → FloatExec H α} {op : FloatOp} {a b : Extended}
    (hk : ∀ g', g.SameStack g' → Answers (k ()) c Status.c1 g' result) :
    Answers (checkDivisor p op a b >>= k) c Status.c1 g result := by
  have hraise : Answers (raise p Exception.zeroDivide >>= k) c Status.c1 g result :=
    raise_answers (by decide) fun g' hg' _ => hk g' hg'
  unfold checkDivisor
  cases op.quotientOf? a b with
  | none =>
    dsimp only
    rw [pure_bind]
    exact hk g (.refl g)
  | some quotient =>
    dsimp only
    rw [bind_assoc]
    refine Leaves.config (d := fun config =>
      (if raisesZeroDivide config quotient.1 quotient.2 = true then raise p Exception.zeroDivide
        else pure ()) >>= k) (fun m => rfl) ?_
    split
    · exact hraise
    · rw [pure_bind]
      exact hk g (.refl g)

/-! ## Operations on NaNs -/

end FloatExec

namespace Extended

/-- A number that an operation delivers in place of the indefinite NaN: that NaN, or an operand
that is a NaN, made quiet. -/
def StandsFor (q a b : Extended) : Prop :=
  q = indefinite ∨ ∃ x, (x = a ∨ x = b) ∧ x.isNan = true ∧ q = x.quiet

/-- A result that is one of the operands, a NaN, made quiet. -/
structure IsNanOf (r : Rounded) (a b : Extended) : Prop where
  value : r.value.StandsFor a b
  exceptions : FloatExec.IsNanException r.exceptions

theorem IsNanOf.symm {r : Rounded} {a b : Extended} (h : IsNanOf r a b) : IsNanOf r b a := by
  refine ⟨h.value.imp_right ?_, h.exceptions⟩
  rintro ⟨x, hx, hrest⟩
  exact ⟨x, hx.symm, hrest⟩

variable {a b : Extended}

/-- Without another NaN among the operands, the indefinite one is delivered. -/
theorem StandsFor.eq_indefinite {q : Extended} (h : q.StandsFor a b)
    (ha : a.isNan = true → a = indefinite) (hb : b.isNan = true → b = indefinite) :
    q = indefinite := by
  rcases h with rfl | ⟨x, rfl | rfl, hnan, rfl⟩
  · rfl
  · rw [ha hnan]
    rfl
  · rw [hb hnan]
    rfl

theorem isNanException_ite (signals : Bool) :
    FloatExec.IsNanException (if signals = true then Exception.invalid else 0) := by
  cases signals
  · exact .inl rfl
  · exact .inr rfl

theorem chooseNan_mem (h : a.isNan = true ∨ b.isNan = true) :
    (chooseNan a b = a ∨ chooseNan a b = b) ∧ (chooseNan a b).isNan = true := by
  unfold chooseNan
  split_ifs with hboth hle hleft
  · exact ⟨.inl rfl, (Bool.and_eq_true_iff.1 hboth).1⟩
  · exact ⟨.inr rfl, (Bool.and_eq_true_iff.1 hboth).2⟩
  · exact ⟨.inl rfl, hleft⟩
  · exact ⟨.inr rfl, h.resolve_left hleft⟩

/-- The larger one of two NaNs, or the only one, is delivered. -/
theorem isNanOf_nanResult? (h : a.isNan = true ∨ b.isNan = true) :
    ∃ r, nanResult? a b = some r ∧ IsNanOf r a b := by
  obtain ⟨hmem, hnan⟩ := chooseNan_mem h
  exact ⟨_, if_pos (by simpa using h), .inr ⟨_, hmem, hnan, rfl⟩, isNanException_ite _⟩

/-- The first one of two NaNs, or the only one, is delivered. -/
theorem isNanOf_firstNan? (h : a.isNan = true ∨ b.isNan = true) :
    ∃ r, firstNan? a b = some r ∧ IsNanOf r a b := by
  have hfirst : ((if a.isNan = true then a else b) = a ∨ (if a.isNan = true then a else b) = b) ∧
      (if a.isNan = true then a else b).isNan = true := by
    split
    next hleft => exact ⟨.inl rfl, hleft⟩
    next hleft => exact ⟨.inr rfl, h.resolve_left hleft⟩
  exact ⟨_, if_pos (by simpa using h), .inr ⟨_, hfirst.1, hfirst.2, rfl⟩, isNanException_ite _⟩

theorem isNanOf_apply (op : FloatOp) (mode : Rounding) (h : a.isNan = true ∨ b.isNan = true) :
    IsNanOf (op.apply mode a b) a b := by
  obtain ⟨r, hr, hnan⟩ := isNanOf_nanResult? h
  obtain ⟨r', hr', hnan'⟩ := isNanOf_nanResult? h.symm
  cases op with
  | add => rwa [FloatOp.apply, add, hr, Option.getD_some]
  | mul => rwa [FloatOp.apply, mul, hr, Option.getD_some]
  | sub => rwa [FloatOp.apply, sub, hr, Option.getD_some]
  | div => rwa [FloatOp.apply, div, hr, Option.getD_some]
  | subReversed => rw [FloatOp.apply, sub, hr', Option.getD_some]; exact hnan'.symm
  | divReversed => rw [FloatOp.apply, div, hr', Option.getD_some]; exact hnan'.symm

end Extended

namespace FloatExec

theorem arith_answers {k : Unit → FloatExec H α} {op : FloatOp} {i : Nat} {a b : Extended}
    (h : a.isNan = true ∨ b.isNan = true)
    (hk : ∀ q g', q.StandsFor a b → (g.store i q).SameStack g' →
      Answers (k ()) c Status.c1 g' result) :
    Answers (arith p op i a b >>= k) c Status.c1 g result := by
  unfold arith
  rw [bind_assoc]
  refine checkDivisor_answers fun g₁ hg₁ => ?_
  rw [bind_assoc]
  refine .view ?_
  have hnan := Extended.isNanOf_apply op g₁.rounding h
  refine storeResult_answers ?_ fun g₂ hg₂ => hk _ g₂ hnan.value ((hg₁.store i _).trans hg₂)
  dsimp only
  rcases hnan.exceptions with he | he
  · rw [he]
    exact .inl rfl
  · rw [he]
    exact .inr rfl

end FloatExec

/-! ## Checks of the stack -/

namespace Fpu

theorem set_status_and_self (f : Fpu) (bits : Word) :
    (f.setCondition bits true).status &&& bits = bits := by
  apply BitVec.eq_of_getLsbD_eq
  intro i _
  simp only [setCondition, if_true, BitVec.getLsbD_and, BitVec.getLsbD_or]
  cases bits.getLsbD i <;> simp

/-- Clearing bits that are clear. -/
theorem clear_of_status_and (h : f.status &&& bits = 0) : f.setCondition bits false = f := by
  have hstatus : f.status &&& ~~~bits = f.status := by
    apply BitVec.eq_of_getLsbD_eq
    intro i hi
    have hbit := congrArg (BitVec.getLsbD · i) h
    simp only [BitVec.getLsbD_and] at hbit
    simp only [BitVec.getLsbD_and, BitVec.getLsbD_not, hi, decide_true, Bool.true_and]
    cases hb : bits.getLsbD i <;> simp_all
  exact congrArg (fun status => { f with status := status }) hstatus

/-- A unit after some checks of the stack: whether they found an empty register, and whether they
found no room. -/
structure Checked (f : Fpu) (seen full : Prop) (g : Fpu) : Prop where
  stack : f.SameStack g
  pending : g.isPending = f.isPending
  recorded : seen ∨ full → g.status &&& FloatExec.stackExceptions = FloatExec.stackExceptions
  masked : seen ∨ full → f.unmasked Exception.invalid = 0
  clear : ¬full → g.status &&& Status.c1 = 0
  set : full → g.status &&& Status.c1 = Status.c1

/-- A stack fault is recorded, and condition one tells which one it was.  When `cleared` holds, an
inexact result may clear that condition again. -/
structure Faulted (f : Fpu) (underflows overflows cleared : Prop) (f' : Fpu) : Prop where
  recorded : f'.status &&& FloatExec.stackExceptions = FloatExec.stackExceptions
  clear : ¬overflows ∨ underflows ∧ f.unmasked Exception.invalid ≠ 0 → f'.status &&& Status.c1 = 0
  set : overflows → ¬(underflows ∧ f.unmasked Exception.invalid ≠ 0) → ¬cleared →
    f'.status &&& Status.c1 = Status.c1

/-- How a program ends that goes on after a stack fault. -/
structure Passes (f : Fpu) (underflows overflows cleared : Prop) (result : Fpu → Prop)
    (f' : Fpu) : Prop extends f.Faulted underflows overflows cleared f' where
  masked : f.unmasked Exception.invalid = 0
  pending : f'.isPending = f.isPending
  cleared : cleared → f'.status &&& Status.c1 = 0
  result : result f'

/-- How a program ends that is stopped, by the stack fault or later. -/
structure Fails (f : Fpu) (underflows overflows cleared : Prop) (f' : Fpu) : Prop
    extends f.Faulted underflows overflows cleared f' where
  pending : f'.isPending = true
  unmasked : ¬f.IsMaskingAll

theorem Checked.start (h : f.status &&& Status.c1 = 0) : f.Checked False False f where
  stack := .refl f
  pending := rfl
  recorded h := (or_self_iff.1 h).elim
  masked h := (or_self_iff.1 h).elim
  clear _ := h
  set := False.elim

end Fpu

namespace FloatExec

/-- A program deals with a stack fault of the unit `f`, from a unit `g` on which some checks were
made. -/
def Handles (x : FloatExec H α) (c : Config) (f g : Fpu) (underflows overflows cleared : Prop)
    (result : α → Fpu → Prop) : Prop :=
  Leaves x c g (fun a => f.Passes underflows overflows cleared (result a))
    (f.Fails underflows overflows cleared)

namespace Handles

variable {k : Unit → FloatExec H α} {underflows overflows cleared seen full : Prop} {i : Nat}

/-- A fault that is not masked stops the program. -/
theorem fails_of_unmasked {on : Bool} (hg : f.SameStack g)
    (h : g.unmasked stackExceptions ≠ 0)
    (hclear : ¬overflows ∨ underflows ∧ f.unmasked Exception.invalid ≠ 0 → on = false)
    (hset : overflows → ¬(underflows ∧ f.unmasked Exception.invalid ≠ 0) → on = true) :
    f.Fails underflows overflows cleared
      ((g.setCondition Status.c1 on).stopped stackExceptions) := by
  have hc1 : ((g.setCondition Status.c1 on).stopped stackExceptions).status &&& Status.c1 =
      (g.setCondition Status.c1 on).status &&& Status.c1 :=
    Fpu.stopped_status_and (by decide) (by decide)
  refine ⟨⟨?_, fun hc => ?_, fun ho hu _ => ?_⟩, Fpu.isPending_stopped _ _, fun hm => ?_⟩
  · exact (Fpu.setCondition_status_and (by decide) true).trans (Fpu.set_status_and_self _ _)
  · rw [hc1, hclear hc]
    exact Fpu.clear_status_and (by decide)
  · rw [hc1, hset ho hu]
    exact Fpu.set_status_and_self _ _
  · exact h ((hg.isMaskingAll_iff.2 hm).unmasked_eq _)

/-- A masked fault is recorded. -/
theorem checked_of_masked {on : Bool} (hg : f.SameStack g) (hpending : g.isPending = f.isPending)
    (h : g.unmasked stackExceptions = 0) (hclear : ¬full → on = false) (hset : full → on = true) :
    f.Checked seen full ((g.setCondition Status.c1 on).setCondition stackExceptions true) where
  stack := (hg.setCondition _ _).setCondition _ _
  pending := by
    rw [Fpu.isPending_setCondition _ (by decide), Fpu.isPending_setCondition _ (by decide)]
    exact hpending
  recorded _ := Fpu.set_status_and_self _ _
  masked _ := by rwa [← hg.unmasked_eq, ← Fpu.unmasked_stackExceptions]
  clear hf := by
    rw [Fpu.setCondition_status_and (by decide), hclear hf]
    exact Fpu.clear_status_and (by decide)
  set hf := by
    rw [Fpu.setCondition_status_and (by decide), hset hf]
    exact Fpu.set_status_and_self _ _

theorem requireFull (hg : f.Checked seen False g) (hu : f.tag i = .empty → underflows)
    (hk : ∀ g', f.Checked (seen ∨ f.tag i = .empty) False g' →
      Handles (k ()) c f g' underflows overflows cleared result) :
    Handles (FloatExec.requireFull p i >>= k) c f g underflows overflows cleared result := by
  refine Leaves.bind (.view (.ite (fun hempty => ?_) fun hfull => ?_))
  · rw [hg.stack.tag_eq] at hempty
    refine .bind (.update (.raise (fun h => hk _ ?_) fun h => ?_))
    · exact checked_of_masked hg.stack hg.pending h (fun _ => rfl) False.elim
    · have hinvalid : f.unmasked Exception.invalid ≠ 0 := by
        rwa [← hg.stack.unmasked_eq, ← Fpu.unmasked_stackExceptions]
      exact fails_of_unmasked hg.stack h (fun _ => rfl) fun _ hn =>
        absurd ⟨hu hempty, hinvalid⟩ hn
  · rw [hg.stack.tag_eq] at hfull
    have hseen (h : (seen ∨ f.tag i = .empty) ∨ False) : seen ∨ False :=
      h.imp_left fun h => h.resolve_right hfull
    exact .pure (hk g { hg with
      recorded := fun h => hg.recorded (hseen h)
      masked := fun h => hg.masked (hseen h) })

theorem requireRoom (hg : f.Checked seen False g) (hu : underflows → seen)
    (ho : f.tag 7 ≠ .empty → overflows)
    (hk : ∀ g', f.Checked seen (f.tag 7 ≠ .empty) g' →
      Handles (k ()) c f g' underflows overflows cleared result) :
    Handles (FloatExec.requireRoom p >>= k) c f g underflows overflows cleared result := by
  refine Leaves.bind (.view (.ite (fun hfull => ?_) fun hempty => ?_))
  · rw [hg.stack.tag_eq] at hfull
    refine .bind (.update (.raise (fun h => hk _ ?_) fun h => ?_))
    · exact checked_of_masked hg.stack hg.pending h (fun hn => absurd hfull hn) fun _ => rfl
    · refine fails_of_unmasked hg.stack h (fun hn => ?_) fun _ _ => rfl
      rcases hn with hn | ⟨hunder, hne⟩
      · exact absurd (ho hfull) hn
      · exact absurd (hg.masked (.inl (hu hunder))) hne
  · rw [hg.stack.tag_eq, ne_eq, not_not] at hempty
    have hroom : (f.tag 7 ≠ .empty) = False := eq_false (not_not.2 hempty)
    rw [hroom] at hk
    exact .pure (hk g hg)

/-- What follows the checks.  There is a fault, so it is masked. -/
theorem answers {x : FloatExec H α} (hg : f.Checked seen full g) (hu : underflows ↔ seen)
    (ho : overflows ↔ full) (hfault : underflows ∨ overflows) (hn : ¬cleared)
    (hx : Answers x c Status.c1 g result) :
    Handles x c f g underflows overflows cleared result := by
  have hfound : seen ∨ full := hfault.imp hu.1 ho.1
  have hmasked := hg.masked hfound
  have hfaulted (f' : Fpu) (h : g.Keeps Status.c1 f') :
      f.Faulted underflows overflows cleared f' := by
    refine ⟨h.recorded (hg.recorded hfound), fun hc => ?_, fun hover _ _ => ?_⟩
    · exact h.same.trans (hg.clear (mt ho.2 (hc.resolve_right fun hn => hn.2 hmasked)))
    · exact h.same.trans (hg.set (ho.1 hover))
  refine hx.mono (fun a f' h => ?_) fun f' h => ?_
  · exact ⟨hfaulted f' h.1.weaken, hmasked, h.1.isPending_eq.trans hg.pending,
      fun hc => absurd hc hn, h.2⟩
  · exact ⟨hfaulted f' h.keeps, h.pending, fun hm => h.unmasked (hg.stack.isMaskingAll_iff.2 hm)⟩

/-- The same for what clears condition one after an overflow. -/
theorem answersCleared {x : FloatExec H α} (hg : f.Checked seen full g) (hover : overflows)
    (hfull : full) (hcleared : cleared)
    (hx : Answers x c 0 g fun a f' => f'.status &&& Status.c1 = 0 ∧ result a f') :
    Handles x c f g underflows overflows cleared result := by
  have hmasked := hg.masked (.inr hfull)
  have hfaulted (f' : Fpu) (h : g.Keeps 0 f') : f.Faulted underflows overflows cleared f' := by
    refine ⟨h.recorded (hg.recorded (.inr hfull)), fun hc => ?_, fun _ _ hn => absurd hcleared hn⟩
    exact absurd hover (hc.resolve_right fun hn => hn.2 hmasked)
  refine hx.mono (fun a f' h => ?_) fun f' h => ?_
  · exact ⟨hfaulted f' h.1.weaken, hmasked, h.1.isPending_eq.trans hg.pending, fun _ => h.2.1,
      h.2.2⟩
  · exact ⟨hfaulted f' h.keeps, h.pending, fun hm => h.unmasked (hg.stack.isMaskingAll_iff.2 hm)⟩

end Handles

end FloatExec

end Ia32
