import Ia32.Proofs.StackChecks

/-!
# Responses to stack faults

An instruction of the unit underflows when it reads an empty register, and it overflows when it
pushes onto a full stack.  Either one is an invalid operation.

If that exception is masked the instruction goes on.  It takes the indefinite NaN for an
empty register and does with it what it does with any number: it changes its sign, it
chooses between it and another NaN, it copies it (`FloatInstruction.Responds`).  A number that
is pushed onto a full stack is the one that would be pushed onto any other.
-/

namespace Ia32

open Host Exec

variable {H : Type} {α : Type} {c : Config} {p : Prefixes} {f g : Fpu} {bits : Word}
  {result : α → Fpu → Prop}

/-! ## Instructions and registers -/

namespace FloatInstruction

/-- The stack registers that an instruction reads. -/
def reads : FloatInstruction → List Nat
  | .arithMemory _ _ | .compareMemory _ _ | .test | .neg | .abs | .sqrt | .roundToIntegral
  | .powerLessOne | .trig _ | .storeReal _ _ | .storeInt _ _ | .storeDecimal
  | .storeRegister _ _ => [0]
  | .arithTop _ i | .arithInto _ i _ | .compare i _ | .exchange i => [0, i]
  | .scale | .remainder | .timesLogarithm | .angle => [0, 1]
  | .loadRegister i => [i]
  | _ => []

/-- Whether an instruction pushes a number. -/
def pushes : FloatInstruction → Bool
  | .load _ | .loadRegister _ | .loadConstant _ | .trig .tan => true
  | _ => false

/-- An instruction reads an empty register. -/
def Underflows (i : FloatInstruction) (f : Fpu) : Prop := ∃ j ∈ i.reads, f.tag j = .empty

/-- An instruction pushes onto a full stack. -/
def Overflows (i : FloatInstruction) (f : Fpu) : Prop := i.pushes = true ∧ f.tag 7 ≠ .empty

variable {i : FloatInstruction}

/-- What a single check of a register finds. -/
theorem underflows_iff {j : Nat} (h : i.reads = [j]) :
    i.Underflows f ↔ False ∨ f.tag j = .empty := by
  simp [Underflows, h]

/-- A push needs the register below the top to be empty. -/
theorem overflows_iff (h : i.pushes = true) : i.Overflows f ↔ f.tag 7 ≠ .empty := by
  simp [Overflows, h]

/-- What pushes nothing cannot overflow. -/
theorem not_overflows (h : i.pushes = false) : ¬i.Overflows f := by
  simp [Overflows, h]

end FloatInstruction

/-! ## Responses -/

namespace Fpu

/-- A unit whose top register is popped, if `pops` says so. -/
def poppedIf (f : Fpu) (pops : Bool) : Fpu := if pops then f.pop else f

theorem SameStack.poppedIf (h : f.SameStack g) (pops : Bool) :
    (f.poppedIf pops).SameStack (g.poppedIf pops) := by
  cases pops with
  | false => exact h
  | true => exact h.pop

/-- What a tangent leaves of an angle: a NaN or the indefinite NaN twice, the angle alone when it is
too large, else its tangent and one. -/
def tangent (f : Fpu) (x : Extended) : Fpu :=
  if x.isNan then (f.store 0 x.quiet).pushNumber x.quiet
  else if x.isInfinite then (f.store 0 .indefinite).pushNumber .indefinite
  else if Trig.exponentLimit ≤ x.exponent then f
  else (f.store 0 (Trig.tan.apply x).value).pushNumber .one

end Fpu

namespace FloatInstruction

/-- A tangent of an angle that is not zero and not too large is inexact. -/
def IsInexactTangent (i : FloatInstruction) (f : Fpu) : Prop :=
  i = .trig .tan ∧ (f.value 0).isFiniteNonzero = true ∧ (f.value 0).exponent < Trig.exponentLimit

/-- What becomes of the register stack after a masked stack fault.  An empty register counts as the
indefinite NaN. -/
def Responds (i : FloatInstruction) (operand : FloatOperand) (f f' : Fpu) : Prop :=
  match i, operand with
  | .arithMemory _ _, .number loaded =>
    ∃ q : Extended, q.StandsFor (f.value 0) loaded.value ∧ (f.store 0 q).SameStack f'
  | .arithTop _ i, _ =>
    ∃ q : Extended, q.StandsFor (f.value 0) (f.value i) ∧ (f.store 0 q).SameStack f'
  | .arithInto _ i pops, _ =>
    ∃ q : Extended, q.StandsFor (f.value i) (f.value 0) ∧
      ((f.store i q).poppedIf pops).SameStack f'
  | .scale, _ | .remainder, _ =>
    ∃ q : Extended, q.StandsFor (f.value 0) (f.value 1) ∧ (f.store 0 q).SameStack f'
  | .timesLogarithm, _ | .angle, _ =>
    ∃ q : Extended, q.StandsFor (f.value 0) (f.value 1) ∧ (f.store 1 q).pop.SameStack f'
  | .neg, _ => (f.store 0 Extended.indefinite.neg).SameStack f'
  | .abs, _ => (f.store 0 Extended.indefinite.abs).SameStack f'
  | .sqrt, _ | .roundToIntegral, _ | .powerLessOne, _ | .trig .sin, _ | .trig .cos, _ =>
    (f.store 0 .indefinite).SameStack f'
  | .trig .tan, _ => (f.tangent (f.value 0)).SameStack f'
  | .compareMemory _ pops, _ => (f.poppedIf pops).SameStack f'
  | .compare _ pops, _ => (Nat.repeat Fpu.pop pops f).SameStack f'
  | .test, _ => f.SameStack f'
  | .load format, .number loaded => (f.pushNumber (loaded.pushed format)).SameStack f'
  | .loadRegister i, _ => (f.pushNumber (f.value i)).SameStack f'
  | .loadConstant constant, _ => (f.pushNumber constant.value).SameStack f'
  | .storeReal _ pops, _ | .storeInt _ pops, _ => (f.poppedIf pops).SameStack f'
  | .storeDecimal, _ => f.pop.SameStack f'
  | .storeRegister i pops, _ => ((f.store i .indefinite).poppedIf pops).SameStack f'
  | .exchange i, _ => ((f.store 0 (f.value i)).store i (f.value 0)).SameStack f'
  | _, _ => False

end FloatInstruction

/-! ## One and two operands -/

namespace FloatExec

variable {i : FloatInstruction} {k : Unit → FloatExec H α}

/-- An empty register reads as the indefinite NaN. -/
theorem value_of_empty {j : Nat} (h : f.tag j = .empty) : f.value j = .indefinite := if_pos h

/-- An instruction that reads the top register and pushes nothing. -/
theorem handles_top (hg : f.Checked False False g) (hreads : i.reads = [0])
    (hpushes : i.pushes = false) (hfault : i.Underflows f ∨ i.Overflows f)
    (hk : ∀ g, f.SameStack g → f.value 0 = .indefinite →
      Answers (k ()) c Status.c1 g result) :
    Handles (requireFull p 0 >>= k) c f g (i.Underflows f) (i.Overflows f) False result := by
  have hunder := FloatInstruction.underflows_iff hreads (f := f)
  have hover := FloatInstruction.not_overflows hpushes (f := f)
  refine .requireFull hg (fun h => hunder.2 (.inr h)) fun g hg => ?_
  refine .answers hg hunder (iff_false_intro hover) hfault id (hk g hg.stack (value_of_empty ?_))
  exact (hunder.1 (hfault.resolve_right hover)).resolve_left id

/-- An instruction that reads the top register and another one. -/
theorem handles_two {j : Nat} (hg : f.Checked False False g) (hreads : i.reads = [0, j])
    (hpushes : i.pushes = false) (hfault : i.Underflows f ∨ i.Overflows f)
    (hk : ∀ g, f.SameStack g → g.status &&& Status.c1 = 0 →
      (f.value 0).isNan = true ∨ (f.value j).isNan = true →
      Answers (k ()) c Status.c1 g result) :
    Handles (requireFull p 0 >>= fun _ => requireFull p j >>= k) c f g (i.Underflows f)
      (i.Overflows f) False result := by
  have hunder : i.Underflows f ↔ (False ∨ f.tag 0 = .empty) ∨ f.tag j = .empty := by
    simp [FloatInstruction.Underflows, hreads]
  have hover := FloatInstruction.not_overflows hpushes (f := f)
  have hempty := hunder.1 (hfault.resolve_right hover)
  refine .requireFull hg (fun h => hunder.2 (.inl (.inr h))) fun g hg => ?_
  refine .requireFull hg (fun h => hunder.2 (.inr h)) fun g hg => ?_
  refine .answers hg hunder (iff_false_intro hover) hfault id (hk g hg.stack (hg.clear id) ?_)
  rcases hempty with (h | h) | h
  · exact h.elim
  · exact .inl (by rw [value_of_empty h]; rfl)
  · exact .inr (by rw [value_of_empty h]; rfl)

/-- The check of an operand raises exceptions of its own, which leave condition one as it was. -/
theorem checkOperand_answers {x : Extended} {denormal : Bool}
    (hk : ∀ g', g.SameStack g' → Answers (k ()) c Status.c1 g' result) :
    Answers (checkOperand p x denormal >>= k) c Status.c1 g result := by
  unfold checkOperand
  split_ifs
  · exact raise_answers (by decide) fun g' hg' _ => hk g' hg'
  · exact raise_answers (by decide) fun g' hg' _ => hk g' hg'
  · rw [pure_bind]
    exact hk g (.refl g)

/-- A masked underflow changes the sign of the indefinite NaN, which is written back. -/
theorem mapTop_handles (hf : f.status &&& Status.c1 = 0) (hreads : i.reads = [0])
    (hpushes : i.pushes = false) (hfault : i.Underflows f ∨ i.Overflows f)
    (change : Extended → Extended) :
    Handles (mapTop p change : FloatExec H Unit) c f f (i.Underflows f) (i.Overflows f) False
      fun _ f' => (f.store 0 (change .indefinite)).SameStack f' := by
  refine handles_top (.start hf) hreads hpushes hfault fun g hg hx => .view ?_
  rw [hg.value_eq, hx]
  exact .updateLast (.of_status_eq rfl) (hg.store 0 _)

/-- The root of the indefinite NaN is that NaN. -/
theorem sqrt_handles (hf : f.status &&& Status.c1 = 0)
    (hfault : FloatInstruction.sqrt.Underflows f ∨ FloatInstruction.sqrt.Overflows f) :
    Handles (sqrt p : FloatExec H Unit) c f f (FloatInstruction.sqrt.Underflows f)
      (FloatInstruction.sqrt.Overflows f) False
      fun _ f' => (f.store 0 .indefinite).SameStack f' := by
  refine handles_top (.start hf) rfl rfl hfault fun g hg hx => .view ?_
  rw [hg.value_eq, hx]
  refine checkDenormal_answers _ fun g₁ hg₁ _ => .view (.last ?_)
  have hroot : Extended.indefinite.sqrt g₁.rounding = .exact .indefinite := rfl
  rw [hroot]
  exact storeResult_answers (.inl rfl) fun g₂ hg₂ => .pure (((hg.trans hg₁).store 0 _).trans hg₂)

theorem roundToIntegral_handles (hf : f.status &&& Status.c1 = 0)
    (hfault : FloatInstruction.roundToIntegral.Underflows f ∨
      FloatInstruction.roundToIntegral.Overflows f) :
    Handles (roundToIntegral p : FloatExec H Unit) c f f
      (FloatInstruction.roundToIntegral.Underflows f)
      (FloatInstruction.roundToIntegral.Overflows f) False
      fun _ f' => (f.store 0 .indefinite).SameStack f' := by
  refine handles_top (.start hf) rfl rfl hfault fun g hg hx => .view ?_
  rw [hg.value_eq, hx]
  refine .ite (fun _ => .ite (fun h => absurd h (by decide)) fun _ => ?_) fun h => absurd rfl h
  exact .updateLast (.of_status_eq rfl) (hg.store 0 _)

theorem powerLessOne_handles (hf : f.status &&& Status.c1 = 0)
    (hfault : FloatInstruction.powerLessOne.Underflows f ∨
      FloatInstruction.powerLessOne.Overflows f) :
    Handles (powerLessOne p : FloatExec H Unit) c f f
      (FloatInstruction.powerLessOne.Underflows f)
      (FloatInstruction.powerLessOne.Overflows f) False
      fun _ f' => (f.store 0 .indefinite).SameStack f' := by
  refine handles_top (.start hf) rfl rfl hfault fun g hg hx => .view ?_
  rw [hg.value_eq, hx]
  refine checkOperand_answers fun g₁ hg₁ => .last ?_
  have hpower : Extended.indefinite.powerLessOne = .exact .indefinite := rfl
  rw [hpower]
  exact storeResult_answers (.inl rfl) fun g₂ hg₂ => .pure (((hg.trans hg₁).store 0 _).trans hg₂)

theorem scale_handles (hf : f.status &&& Status.c1 = 0)
    (hfault : FloatInstruction.scale.Underflows f ∨ FloatInstruction.scale.Overflows f) :
    Handles (scale p : FloatExec H Unit) c f f (FloatInstruction.scale.Underflows f)
      (FloatInstruction.scale.Overflows f) False
      fun _ f' => ∃ q : Extended, q.StandsFor (f.value 0) (f.value 1) ∧
        (f.store 0 q).SameStack f' := by
  refine handles_two (.start hf) rfl rfl hfault fun g hg _ hnan => .view (.view (.view (.last ?_)))
  rw [hg.value_eq, hg.value_eq]
  obtain ⟨r, hr, hnan⟩ := Extended.isNanOf_firstNan? hnan
  have hscaled : (f.value 0).scaleByNumber g.rounding (f.value 1) = r := by
    rw [Extended.scaleByNumber, hr]
  rw [hscaled]
  exact storeResult_answers hnan.exceptions fun g₁ hg₁ =>
    .pure ⟨r.value, hnan.value, (hg.store 0 _).trans hg₁⟩

theorem raiseIfAmong_answers (hb : bits = Exception.invalid ∨ bits = Exception.zeroDivide)
    (hk : ∀ g', g.SameStack g' → g'.status &&& Status.c1 = g.status &&& Status.c1 →
      Answers (k ()) c Status.c1 g' result) :
    Answers (raiseIfAmong p exceptions bits >>= k) c Status.c1 g result := by
  unfold raiseIfAmong
  split
  · rw [pure_bind]
    exact hk g (.refl g) rfl
  · exact raise_answers (by rcases hb with rfl | rfl <;> decide) hk

/-- A step of a division that delivers a NaN clears the conditions. -/
theorem remainderConditions_done (hc1 : g.status &&& Status.c1 = 0) (r : Rounded) :
    g.Proceeds Status.c1 (remainderConditions (.done r) g) ∧
      g.SameStack (remainderConditions (.done r) g) := by
  have hclear : (g.setCondition Status.c2 false).setCondition Status.c1 false =
      g.setCondition Status.c2 false := by
    apply Fpu.clear_of_status_and
    rw [Fpu.setCondition_status_and (by decide), hc1]
  have hdone : remainderConditions (.done r) g =
      (((g.setCondition Status.c2 false).setCondition Status.c1 false).setCondition
        Status.c3 false).setCondition Status.c0 false := by
    rw [remainderConditions]
    simp only [PartialRemainder.done, Bool.not_true, if_true, Nat.zero_testBit]
  rw [hdone, hclear]
  refine ⟨.trans (.trans ?_ (.clear _ (by decide) (by decide))) (.clear _ (by decide) (by decide)),
    ((g.sameStack_setCondition _ _).setCondition _ _).setCondition _ _⟩
  exact .clear _ (by decide) (by decide)

/-- A remainder with a missing operand is the indefinite NaN, or the NaN of the other operand. -/
theorem remainder_handles (hf : f.status &&& Status.c1 = 0)
    (hfault : FloatInstruction.remainder.Underflows f ∨ FloatInstruction.remainder.Overflows f) :
    Handles (remainder p : FloatExec H Unit) c f f (FloatInstruction.remainder.Underflows f)
      (FloatInstruction.remainder.Overflows f) False
      fun _ f' => ∃ q : Extended, q.StandsFor (f.value 0) (f.value 1) ∧
        (f.store 0 q).SameStack f' := by
  refine handles_two (.start hf) rfl rfl hfault fun g hg hc1 hnan => .view (.view ?_)
  rw [hg.value_eq, hg.value_eq]
  obtain ⟨r, hr, hnan⟩ := Extended.isNanOf_nanResult? hnan
  have hdone : (f.value 0).partialRemainder (f.value 1) = .done r := by
    rw [Extended.partialRemainder, hr]
  refine checkDenormal_answers _ fun g₁ hg₁ hc₁ => checkDenormal_answers _ fun g₂ hg₂ hc₂ => ?_
  dsimp only
  rw [hdone]
  refine raiseIfAmong_answers (.inl rfl) fun g₃ hg₃ hc₃ => ?_
  have hclear : g₃.status &&& Status.c1 = 0 := hc₃.trans (hc₂.trans (hc₁.trans hc1))
  obtain ⟨hproceeds, hstack⟩ := remainderConditions_done (g := g₃.store 0 r.value) hclear r
  have hnone : (PartialRemainder.done r).exceptions &&& ~~~Exception.invalid = 0 := by
    change r.exceptions &&& ~~~Exception.invalid = 0
    rcases hnan.exceptions with he | he <;> rw [he] <;> rfl
  have hvalue : (PartialRemainder.done r).value = r.value := rfl
  rw [hnone, hvalue]
  have hstore : g₃.Proceeds Status.c1 (g₃.store 0 r.value) := .of_status_eq rfl
  refine .update (hstore.trans hproceeds) hstack.control (.last ?_)
  refine raiseAfter_answers (.inl rfl) fun g₄ hg₄ => .pure ⟨r.value, hnan.value, ?_⟩
  exact (((((hg.trans hg₁).trans hg₂).trans hg₃).store 0 _).trans hstack).trans hg₄

/-- The two top registers are combined into the second one. -/
theorem combine_handles {compute : Extended → Extended → Rounded}
    (hcompute : ∀ y x r, Extended.firstNan? x y = some r → compute y x = r)
    (hf : f.status &&& Status.c1 = 0) (hreads : i.reads = [0, 1])
    (hpushes : i.pushes = false) (hfault : i.Underflows f ∨ i.Overflows f) :
    Handles (combine p compute : FloatExec H Unit) c f f (i.Underflows f) (i.Overflows f) False
      fun _ f' => ∃ q : Extended, q.StandsFor (f.value 0) (f.value 1) ∧
        (f.store 1 q).pop.SameStack f' := by
  refine handles_two (.start hf) hreads hpushes hfault fun g hg _ hnan => .view (.view ?_)
  rw [hg.value_eq, hg.value_eq]
  obtain ⟨r, hr, hnan⟩ := Extended.isNanOf_firstNan? hnan
  rw [hcompute _ _ r hr]
  refine raiseIfAmong_answers (.inl rfl) fun g₁ hg₁ _ => ?_
  refine raiseIfAmong_answers (.inr rfl) fun g₂ hg₂ _ => ?_
  refine storeResult_answers ?_ fun g₃ hg₃ => .updateLast (.of_status_eq rfl)
    ⟨r.value, hnan.value, ((((hg.trans hg₁).trans hg₂).store 1 _).trans hg₃).pop⟩
  rcases hnan.exceptions with he | he
  · exact .inl (by rw [he]; rfl)
  · exact .inl (by rw [he]; rfl)

/-! ## Arithmetic and comparisons -/

/-- An operation with a missing operand gives the indefinite NaN, or the NaN of the other
operand. -/
theorem arithLoaded_handles {op : FloatOp} {format : NumberFormat} (loaded : Loaded)
    (hf : f.status &&& Status.c1 = 0)
    (hfault : (FloatInstruction.arithMemory op format).Underflows f ∨
      (FloatInstruction.arithMemory op format).Overflows f) :
    Handles (arithLoaded p op loaded : FloatExec H Unit) c f f
      ((FloatInstruction.arithMemory op format).Underflows f)
      ((FloatInstruction.arithMemory op format).Overflows f) False
      fun _ f' => ∃ q : Extended, q.StandsFor (f.value 0) loaded.value ∧
        (f.store 0 q).SameStack f' := by
  refine handles_top (.start hf) rfl rfl hfault fun g hg hx => ?_
  have hnan : (f.value 0).isNan = true ∨ loaded.value.isNan = true := .inl (by rw [hx]; rfl)
  have harith (g₁ : Fpu) (hg₁ : f.SameStack g₁) : Answers
      (FloatExec.view (·.value 0) >>= fun a => arith p op 0 a loaded.value : FloatExec H Unit) c
      Status.c1 g₁ fun _ f' => ∃ q : Extended, q.StandsFor (f.value 0) loaded.value ∧
        (f.store 0 q).SameStack f' := by
    refine .view ?_
    rw [hg₁.value_eq]
    exact .last (arith_answers hnan fun q g₂ hq hg₂ => .pure ⟨q, hq, (hg₁.store 0 q).trans hg₂⟩)
  refine .ite (fun _ => .raise (by decide) (by decide) ?_) fun _ => harith g hg
  exact harith _ (hg.setCondition _ _)

theorem arithTop_handles {op : FloatOp} {j : Nat} (hf : f.status &&& Status.c1 = 0)
    (hfault : (FloatInstruction.arithTop op j).Underflows f ∨
      (FloatInstruction.arithTop op j).Overflows f) :
    Handles (arithTop p op j : FloatExec H Unit) c f f
      ((FloatInstruction.arithTop op j).Underflows f)
      ((FloatInstruction.arithTop op j).Overflows f) False
      fun _ f' => ∃ q : Extended, q.StandsFor (f.value 0) (f.value j) ∧
        (f.store 0 q).SameStack f' := by
  refine handles_two (.start hf) rfl rfl hfault fun g hg _ hnan => .view (.view (.last ?_))
  rw [hg.value_eq, hg.value_eq]
  exact arith_answers hnan fun q g₁ hq hg₁ => .pure ⟨q, hq, (hg.store 0 q).trans hg₁⟩

/-- A pop does not touch condition one. -/
theorem popIf_answers {pops : Bool} {result : Fpu → Prop} (h : result (g.poppedIf pops)) :
    Answers (popIf pops : FloatExec H Unit) c Status.c1 g fun _ => result := by
  cases pops with
  | false => exact .pure h
  | true => exact .updateLast (.of_status_eq rfl) h

/-- The register is popped after a masked underflow too. -/
theorem arithInto_handles {op : FloatOp} {j : Nat} {pops : Bool} (hf : f.status &&& Status.c1 = 0)
    (hfault : (FloatInstruction.arithInto op j pops).Underflows f ∨
      (FloatInstruction.arithInto op j pops).Overflows f) :
    Handles (arithInto p op j pops : FloatExec H Unit) c f f
      ((FloatInstruction.arithInto op j pops).Underflows f)
      ((FloatInstruction.arithInto op j pops).Overflows f) False
      fun _ f' => ∃ q : Extended, q.StandsFor (f.value j) (f.value 0) ∧
        ((f.store j q).poppedIf pops).SameStack f' := by
  refine handles_two (.start hf) rfl rfl hfault fun g hg _ hnan => .view (.view ?_)
  rw [hg.value_eq, hg.value_eq]
  exact arith_answers hnan.symm fun q g₁ hq hg₁ =>
    popIf_answers ⟨q, hq, ((hg.store j q).trans hg₁).poppedIf pops⟩

/-- The conditions of a comparison are other bits than condition one. -/
theorem setComparison_proceeds (g : Fpu) (hb : bits &&& (Status.c1 ||| Status.summary) = 0) :
    g.Proceeds Status.c1 ((g.setCondition Status.comparison false).setCondition bits true) :=
  .trans (.clear g (by decide) (by decide)) (.set _ hb)

/-- Setting the conditions of a comparison before the checks. -/
theorem checked_setComparison (hf : f.status &&& Status.c1 = 0) :
    f.Checked False False
      ((f.setCondition Status.comparison false).setCondition Status.comparison true) where
  stack := (f.sameStack_setCondition _ _).setCondition _ _
  pending := (setComparison_proceeds f (by decide)).isPending_eq
  recorded h := (or_self_iff.1 h).elim
  masked h := (or_self_iff.1 h).elim
  clear _ := (setComparison_proceeds f (by decide)).weaken.same.trans hf
  set := False.elim

/-- At the end of a comparison its conditions are set. -/
theorem setComparison_answers (r : Relation)
    (hk : ∀ g', g.SameStack g' → Answers (k ()) c Status.c1 g' result) :
    Answers (setComparison (relationConditions r) >>= k) c Status.c1 g result :=
  .update (setComparison_proceeds g (by cases r <;> decide)) rfl
    (hk _ ((g.sameStack_setCondition _ _).setCondition _ _))

theorem compareLoaded_handles {format : NumberFormat} {pops : Bool} (loaded : Loaded)
    (hf : f.status &&& Status.c1 = 0)
    (hfault : (FloatInstruction.compareMemory format pops).Underflows f ∨
      (FloatInstruction.compareMemory format pops).Overflows f) :
    Handles (compareLoaded p loaded pops : FloatExec H Unit) c f f
      ((FloatInstruction.compareMemory format pops).Underflows f)
      ((FloatInstruction.compareMemory format pops).Overflows f) False
      fun _ f' => (f.poppedIf pops).SameStack f' := by
  refine Leaves.bind (.update ?_)
  refine handles_top (checked_setComparison hf) rfl rfl hfault fun g hg _ => .view ?_
  refine checkOperand_answers fun g₁ hg₁ => checkOperand_answers fun g₂ hg₂ => ?_
  refine setComparison_answers _ fun g₃ hg₃ => popIf_answers ?_
  exact (((hg.trans hg₁).trans hg₂).trans hg₃).poppedIf pops

/-- A comparison with a missing operand is unordered. -/
theorem compare_handles {j pops : Nat} (hf : f.status &&& Status.c1 = 0)
    (hfault : (FloatInstruction.compare j pops).Underflows f ∨
      (FloatInstruction.compare j pops).Overflows f) :
    Handles (compare p j pops : FloatExec H Unit) c f f
      ((FloatInstruction.compare j pops).Underflows f)
      ((FloatInstruction.compare j pops).Overflows f) False
      fun _ f' => (Nat.repeat Fpu.pop pops f).SameStack f' := by
  refine handles_two (.start hf) rfl rfl hfault fun g hg _ _ => ?_
  refine setComparison_answers .unordered fun g₁ hg₁ => .view (.view ?_)
  refine checkOperand_answers fun g₂ hg₂ => checkOperand_answers fun g₃ hg₃ => ?_
  refine setComparison_answers _ fun g₄ hg₄ => ?_
  refine .updateLast (.of_status_eq (g₄.status_repeat_pop pops)) ?_
  exact ((((hg.trans hg₁).trans hg₂).trans hg₃).trans hg₄).repeat_pop pops

theorem test_handles (hf : f.status &&& Status.c1 = 0)
    (hfault : FloatInstruction.test.Underflows f ∨ FloatInstruction.test.Overflows f) :
    Handles (test p : FloatExec H Unit) c f f (FloatInstruction.test.Underflows f)
      (FloatInstruction.test.Overflows f) False fun _ f' => f.SameStack f' := by
  refine Leaves.bind (.update ?_)
  refine handles_top (checked_setComparison hf) rfl rfl hfault fun g hg _ => .view ?_
  refine checkOperand_answers fun g₁ hg₁ => .last (setComparison_answers _ fun g₂ hg₂ => .pure ?_)
  exact (hg.trans hg₁).trans hg₂

/-! ## Loads and copies -/

/-- The indefinite NaN is copied, and popped if the instruction pops. -/
theorem storeRegister_handles {j : Nat} {pops : Bool} (hf : f.status &&& Status.c1 = 0)
    (hfault : (FloatInstruction.storeRegister j pops).Underflows f ∨
      (FloatInstruction.storeRegister j pops).Overflows f) :
    Handles (storeRegister p j pops : FloatExec H Unit) c f f
      ((FloatInstruction.storeRegister j pops).Underflows f)
      ((FloatInstruction.storeRegister j pops).Overflows f) False
      fun _ f' => ((f.store j .indefinite).poppedIf pops).SameStack f' := by
  refine handles_top (.start hf) rfl rfl hfault fun g hg hx => .view ?_
  rw [hg.value_eq, hx]
  exact .store (popIf_answers ((hg.store j _).poppedIf pops))

/-- An exchange with an empty register fills it with the indefinite NaN. -/
theorem exchange_handles {j : Nat} (hf : f.status &&& Status.c1 = 0)
    (hfault : (FloatInstruction.exchange j).Underflows f ∨
      (FloatInstruction.exchange j).Overflows f) :
    Handles (exchange p j : FloatExec H Unit) c f f ((FloatInstruction.exchange j).Underflows f)
      ((FloatInstruction.exchange j).Overflows f) False
      fun _ f' => ((f.store 0 (f.value j)).store j (f.value 0)).SameStack f' := by
  refine handles_two (.start hf) rfl rfl hfault fun g hg _ _ => .view (.view ?_)
  rw [hg.value_eq, hg.value_eq]
  exact .updateLast (.of_status_eq rfl) ((hg.store 0 _).store j _)

/-- An instruction that reads nothing and pushes. -/
theorem handles_push (hf : f.status &&& Status.c1 = 0) (hreads : i.reads = [])
    (hpushes : i.pushes = true) (hfault : i.Underflows f ∨ i.Overflows f)
    (hk : ∀ g, f.SameStack g → Answers (k ()) c Status.c1 g result) :
    Handles (requireRoom p >>= k) c f f (i.Underflows f) (i.Overflows f) False result := by
  have hunder : ¬i.Underflows f := by simp [FloatInstruction.Underflows, hreads]
  have hover := FloatInstruction.overflows_iff hpushes (f := f)
  refine .requireRoom (.start hf) hunder hover.2 fun g hg => ?_
  exact .answers hg (iff_false_intro hunder) hover hfault id (hk g hg.stack)

/-- A push upon a full register overwrites it when the overflow is masked. -/
theorem push_answers {x : Extended} (h : f.SameStack g) :
    Answers (update (·.pushNumber x) : FloatExec H Unit) c Status.c1 g
      fun _ f' => (f.pushNumber x).SameStack f' :=
  .updateLast (.of_status_eq rfl) (h.pushNumber x)

/-- A load that overflows under its mask pushes the number all the same. -/
theorem load_handles {format : NumberFormat} (loaded : Loaded) (hf : f.status &&& Status.c1 = 0)
    (hfault : (FloatInstruction.load format).Underflows f ∨
      (FloatInstruction.load format).Overflows f) :
    Handles (load p format loaded : FloatExec H Unit) c f f
      ((FloatInstruction.load format).Underflows f)
      ((FloatInstruction.load format).Overflows f) False
      fun _ f' => (f.pushNumber (loaded.pushed format)).SameStack f' := by
  refine handles_push hf rfl rfl hfault fun g hg => ?_
  rw [Loaded.pushed]
  refine .ite (fun hsignals => ?_) fun hquiet => ?_
  · have hpushed : loaded.signals format = true := hsignals
    rw [if_pos hpushed]
    exact .raise (by decide) (by decide) (push_answers (hg.setCondition _ _))
  · have hpushed : ¬loaded.signals format = true := hquiet
    rw [if_neg hpushed]
    refine .ite (fun _ => .raise (by decide) (by decide) ?_) fun _ => push_answers hg
    exact push_answers (hg.setCondition _ _)

theorem loadConstant_handles {constant : Constant} (hf : f.status &&& Status.c1 = 0)
    (hfault : (FloatInstruction.loadConstant constant).Underflows f ∨
      (FloatInstruction.loadConstant constant).Overflows f) :
    Handles (loadConstant p constant : FloatExec H Unit) c f f
      ((FloatInstruction.loadConstant constant).Underflows f)
      ((FloatInstruction.loadConstant constant).Overflows f) False
      fun _ f' => (f.pushNumber constant.value).SameStack f' :=
  handles_push hf rfl rfl hfault fun _ hg => push_answers hg

theorem loadRegister_handles {j : Nat} (hf : f.status &&& Status.c1 = 0)
    (hfault : (FloatInstruction.loadRegister j).Underflows f ∨
      (FloatInstruction.loadRegister j).Overflows f) :
    Handles (loadRegister p j : FloatExec H Unit) c f f
      ((FloatInstruction.loadRegister j).Underflows f)
      ((FloatInstruction.loadRegister j).Overflows f) False
      fun _ f' => (f.pushNumber (f.value j)).SameStack f' := by
  have hunder : (FloatInstruction.loadRegister j).Underflows f ↔ False ∨ f.tag j = .empty :=
    FloatInstruction.underflows_iff rfl
  have hover : (FloatInstruction.loadRegister j).Overflows f ↔ f.tag 7 ≠ .empty :=
    FloatInstruction.overflows_iff rfl
  refine .requireFull (.start hf) (fun h => hunder.2 (.inr h)) fun g hg => Leaves.view ?_
  rw [hg.stack.value_eq]
  refine Handles.requireRoom hg hunder.1 hover.2 fun g₁ hg₁ => ?_
  exact .answers hg₁ hunder hover hfault id (push_answers hg₁.stack)

/-! ## Functions of an angle -/

theorem storeTwice_answers {x : Extended} (h : f.SameStack g) :
    Answers (storeTwice .tan x : FloatExec H Unit) c Status.c1 g
      fun _ f' => ((f.store 0 x).pushNumber x).SameStack f' :=
  .store (push_answers (h.store 0 x))

theorem trig_handles {angle : Trig} (hangle : angle ≠ .tan) (hf : f.status &&& Status.c1 = 0)
    (hpushes : (FloatInstruction.trig angle).pushes = false)
    (hfault : (FloatInstruction.trig angle).Underflows f ∨
      (FloatInstruction.trig angle).Overflows f) :
    Handles (trig p angle : FloatExec H Unit) c f f ((FloatInstruction.trig angle).Underflows f)
      ((FloatInstruction.trig angle).Overflows f) False
      fun _ f' => (f.store 0 .indefinite).SameStack f' := by
  refine handles_top (.start hf) rfl hpushes hfault fun g hg hx => ?_
  refine .ite (fun h => absurd h hangle) fun _ => .view ?_
  rw [hg.value_eq, hx]
  refine .ite (fun _ => .ite (fun h => absurd h (by decide)) fun _ => ?_) fun h => absurd rfl h
  exact .store (.ite (fun h => absurd h hangle) fun _ => .pure (hg.store 0 _))

/-- The tangent of a finite angle that is not zero and not too large.  It is inexact, and this
clears condition one. -/
theorem trigFinite_answers {x : Extended} (hx : x.isZero = false) (h : f.SameStack g) :
    Answers (trigFinite p .tan x : FloatExec H Unit) c 0 g fun _ f' =>
      f'.status &&& Status.c1 = 0 ∧
        ((f.store 0 (Trig.tan.apply x).value).pushNumber .one).SameStack f' := by
  have hresult (g₁ : Fpu) (hg₁ : f.SameStack g₁) : Answers
      (storeResult p 0 (Trig.tan.apply x) >>= fun _ => update (·.pushNumber .one) :
        FloatExec H Unit) c 0 g₁ fun _ f' => f'.status &&& Status.c1 = 0 ∧
      ((f.store 0 (Trig.tan.apply x).value).pushNumber .one).SameStack f' := by
    have hinexact : (Trig.tan.apply x).exceptions = Exception.precision := by
      rw [Trig.apply, Extended.approximate, hx]
      rfl
    have hraise : (raiseAfter p Exception.precision : FloatExec H Unit) =
        update (·.setCondition Status.c1 false) >>= fun _ =>
          raise p Exception.precision >>= pure := rfl
    unfold storeResult
    rw [bind_assoc, hinexact, hraise]
    refine .store ?_
    rw [bind_assoc, bind_pure]
    refine .update (.clear _ (by decide) (by decide)) rfl ?_
    refine .raise (by decide) (by decide) (.updateLast (.of_status_eq rfl) ⟨?_, ?_⟩)
    · exact (Fpu.setCondition_status_and (by decide) true).trans (Fpu.clear_status_and (by decide))
    · exact (((hg₁.store 0 _).setCondition _ _).setCondition _ _).pushNumber .one
  refine .update (.clear _ (by decide) (by decide)) rfl ?_
  have hg := h.setCondition Status.c2 false
  unfold checkDenormal
  split
  · exact .raise (by decide) (by decide) (hresult _ (hg.setCondition _ _))
  · rw [pure_bind]
    exact hresult _ hg

/-- The tangent of zero is exact. -/
theorem trigFinite_zero_answers {x : Extended} (hx : x.isZero = true) (h : f.SameStack g) :
    Answers (trigFinite p .tan x : FloatExec H Unit) c Status.c1 g
      fun _ f' => ((f.store 0 (Trig.tan.apply x).value).pushNumber .one).SameStack f' := by
  have hexact : (Trig.tan.apply x).exceptions = 0 := by
    rw [Trig.apply, Extended.approximate, hx]
    rfl
  refine .update (.clear _ (by decide) (by decide)) rfl ?_
  refine checkDenormal_answers _ fun g₁ hg₁ _ => storeResult_answers (.inl hexact) fun g₂ hg₂ => ?_
  exact push_answers ((((h.setCondition _ _).trans hg₁).store 0 _).trans hg₂)

/-- The tangent may underflow, overflow, or both.  Where it is inexact in the end, condition one
is cleared again. -/
theorem tan_handles (hf : f.status &&& Status.c1 = 0)
    (hfault : (FloatInstruction.trig .tan).Underflows f ∨
      (FloatInstruction.trig .tan).Overflows f) :
    Handles (trig p .tan : FloatExec H Unit) c f f ((FloatInstruction.trig .tan).Underflows f)
      ((FloatInstruction.trig .tan).Overflows f) ((FloatInstruction.trig .tan).IsInexactTangent f)
      fun _ f' => (f.tangent (f.value 0)).SameStack f' := by
  have hunder : (FloatInstruction.trig .tan).Underflows f ↔ False ∨ f.tag 0 = .empty :=
    FloatInstruction.underflows_iff rfl
  have hover : (FloatInstruction.trig .tan).Overflows f ↔ f.tag 7 ≠ .empty :=
    FloatInstruction.overflows_iff rfl
  refine .requireFull (.start hf) (fun h => hunder.2 (.inr h)) fun g hg => ?_
  refine Leaves.ite (fun _ => ?_) fun h => absurd rfl h
  refine Handles.requireRoom hg hunder.1 hover.2 fun g₁ hg₁ => Leaves.view ?_
  rw [hg₁.stack.value_eq]
  rw [Fpu.tangent]
  by_cases hinexact : (FloatInstruction.trig .tan).IsInexactTangent f
  · obtain ⟨-, hfinite, hlimit⟩ := id hinexact
    obtain ⟨hnan, hinfinite, hzero⟩ := Extended.isFiniteNonzero_iff.1 hfinite
    have hfull : f.tag 0 ≠ .empty := fun hempty => by
      rw [value_of_empty hempty] at hfinite
      exact absurd hfinite (by decide)
    have hoverflows := hfault.resolve_left fun h => hfull ((hunder.1 h).resolve_left id)
    simp only [hnan, hinfinite, Bool.false_eq_true, if_false, if_neg (BitVec.not_le.2 hlimit)]
    exact Handles.answersCleared hg₁ hoverflows (hover.1 hoverflows) hinexact
      (trigFinite_answers hzero hg₁.stack)
  · refine Handles.answers hg₁ hunder hover hfault hinexact ?_
    refine .ite (fun hnan => ?_) fun hnan => .ite (fun hinfinite => ?_) fun hinfinite =>
      .ite (fun hlarge => ?_) fun hlarge => ?_
    · rw [if_pos hnan]
      refine .ite (fun _ => .raise (by decide) (by decide) ?_) fun _ =>
        storeTwice_answers hg₁.stack
      exact storeTwice_answers (hg₁.stack.setCondition _ _)
    · rw [if_neg hnan, if_pos hinfinite]
      refine .raise (by decide) (by decide) ?_
      refine .update (.clear _ (by decide) (by decide)) rfl (storeTwice_answers ?_)
      exact (hg₁.stack.setCondition _ _).setCondition _ _
    · rw [if_neg hnan, if_neg hinfinite, if_pos hlarge]
      exact .updateLast (.set _ (by decide)) (hg₁.stack.setCondition _ _)
    · rw [if_neg hnan, if_neg hinfinite, if_neg hlarge]
      have hzero : (f.value 0).isZero = true := by
        by_contra hzero
        refine hinexact ⟨rfl, Extended.isFiniteNonzero_iff.2 ?_, BitVec.not_le.1 hlarge⟩
        exact ⟨eq_false_of_ne_true hnan, eq_false_of_ne_true hinfinite, eq_false_of_ne_true hzero⟩
      exact trigFinite_zero_answers hzero hg₁.stack

end FloatExec

end Ia32
