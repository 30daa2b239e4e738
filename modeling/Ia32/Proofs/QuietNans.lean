import Ia32.Proofs.RaisedExceptions

/-!
# Quiet NaNs

A quiet NaN among the operands of a computation, with no NaN among them that
signals, is the result or another quiet NaN is, and this is no invalid operation
(`Machine.quietNan_step`).  The other exceptions of operands stay: a denormal
number, and a zero divisor when it always raises.  If one of these is not masked the instruction
is stopped before it writes anything.

There is one exception.  Two to the power of a number checks its operand by the rule
of comparisons, for which every NaN is invalid.
-/

namespace Ia32

variable {H : Type} {c : Config} {f g : Fpu} {p : Prefixes}

/-! ## Numbers -/

namespace Extended

variable {a b x : Extended}

theorem isNan_of_quiet (h : x.classify = .quietNan) : x.isNan = true := by
  rw [isNan, h]

/-- A quiet NaN is no denormal number, so that it raises no such exception. -/
theorem isDenormal_of_quiet (h : x.classify = .quietNan) : x.isDenormal = false := by
  rw [isDenormal, h]
  rfl

theorem isSignaling_of_quiet (h : x.classify = .quietNan) : x.isSignaling = false := by
  rw [isSignaling, h]

/-- A NaN that does not signal is quiet. -/
theorem classify_of_isNan (h : x.isNan = true) (hs : x.isSignaling = false) :
    x.classify = .quietNan := by
  unfold isNan at h
  unfold isSignaling at hs
  cases hx : x.classify <;> simp_all

/-- A quiet NaN is the quiet NaN for itself. -/
theorem quiet_of_quiet (h : x.classify = .quietNan) : x.quiet = x := by
  have hbit : x.significand &&& quietBit ≠ 0 := by
    unfold classify at h
    extract_lets hasIntegerBit at h
    split_ifs at h with hspecial hbit hinfinite hquiet
    exact bne_iff_ne.1 hquiet
  -- What makes it quiet is the bit that would be set.
  have hkept : x.significand ||| quietBit = x.significand := by
    have htop : quietBit = BitVec.twoPow 64 62 := by decide
    apply BitVec.eq_of_getLsbD_eq
    intro i _
    rw [htop, BitVec.getLsbD_or, BitVec.getLsbD_twoPow]
    by_cases hi : 62 = i
    · rw [← hi, (and_quietBit_ne_zero_iff _).1 hbit, Bool.true_or]
    · rw [decide_eq_false hi, Bool.and_false, Bool.or_false]
  rw [quiet, h, if_neg (by decide), hkept]

/-- Numbers of which one is a quiet NaN and none signals. -/
structure Quiet (a b : Extended) : Prop where
  nan : a.classify = .quietNan ∨ b.classify = .quietNan
  left : a.isSignaling = false
  right : b.isSignaling = false

theorem Quiet.symm (h : Quiet a b) : Quiet b a := ⟨h.nan.symm, h.right, h.left⟩

theorem Quiet.isNan (h : Quiet a b) : a.isNan = true ∨ b.isNan = true :=
  h.nan.imp isNan_of_quiet isNan_of_quiet

/-- The one of two such numbers that is a NaN. -/
theorem Quiet.classify_of_isNan {q : Extended} (h : Quiet a b) (hq : q = a ∨ q = b)
    (hnan : q.isNan = true) : q.classify = .quietNan := by
  rcases hq with rfl | rfl
  · exact Extended.classify_of_isNan hnan h.left
  · exact Extended.classify_of_isNan hnan h.right

/-- A result that is one of the operands, a quiet NaN, and raises nothing. -/
def IsQuietOf (r : Rounded) (a b : Extended) : Prop :=
  ∃ q ∈ [a, b], q.classify = .quietNan ∧ r = .exact q

theorem IsQuietOf.symm {r : Rounded} (h : IsQuietOf r a b) : IsQuietOf r b a := by
  obtain ⟨q, hq, hrest⟩ := h
  exact ⟨q, List.mem_pair.2 (List.mem_pair.1 hq).symm, hrest⟩

/-- One of two such numbers, made quiet. -/
theorem Quiet.isQuietOf {q : Extended} (h : Quiet a b) (hq : q = a ∨ q = b)
    (hnan : q.isNan = true) :
    IsQuietOf ⟨q.quiet, if a.isSignaling || b.isSignaling then Exception.invalid else 0⟩ a b := by
  have hquiet := h.classify_of_isNan hq hnan
  refine ⟨q, List.mem_pair.2 hq, hquiet, ?_⟩
  rw [quiet_of_quiet hquiet, h.left, h.right]
  rfl

/-- The arithmetic delivers one of the NaNs, and raises nothing for quiet ones. -/
theorem Quiet.nanResult? (h : Quiet a b) :
    ∃ r, Extended.nanResult? a b = some r ∧ IsQuietOf r a b := by
  obtain ⟨hmem, hnan⟩ := chooseNan_mem h.isNan
  exact ⟨_, if_pos (by simpa using h.isNan), h.isQuietOf hmem hnan⟩

theorem Quiet.firstNan? (h : Quiet a b) :
    ∃ r, Extended.firstNan? a b = some r ∧ IsQuietOf r a b := by
  refine ⟨_, if_pos (by simpa using h.isNan), ?_⟩
  split
  next hleft => exact h.isQuietOf (.inl rfl) hleft
  next hleft => exact h.isQuietOf (.inr rfl) (h.isNan.resolve_left hleft)

theorem Quiet.apply (h : Quiet a b) (op : FloatOp) (mode : Rounding) :
    IsQuietOf (op.apply mode a b) a b := by
  obtain ⟨r, hr, hquiet⟩ := h.nanResult?
  obtain ⟨r', hr', hquiet'⟩ := h.symm.nanResult?
  cases op with
  | add => rwa [FloatOp.apply, add, hr, Option.getD_some]
  | mul => rwa [FloatOp.apply, mul, hr, Option.getD_some]
  | sub => rwa [FloatOp.apply, sub, hr, Option.getD_some]
  | div => rwa [FloatOp.apply, div, hr, Option.getD_some]
  | subReversed => rw [FloatOp.apply, sub, hr', Option.getD_some]; exact hquiet'.symm
  | divReversed => rw [FloatOp.apply, div, hr', Option.getD_some]; exact hquiet'.symm

end Extended

/-! ## Instructions -/

namespace FloatInstruction

/-- The numbers that an instruction computes with.  A comparison computes nothing. -/
def operands (f : Fpu) : FloatInstruction → FloatOperand → List Extended
  | .arithMemory _ _, .number loaded => [f.value 0, loaded.value]
  | .arithTop _ i, _ => [f.value 0, f.value i]
  | .arithInto _ i _, _ => [f.value i, f.value 0]
  | .scale, _ | .remainder, _ | .timesLogarithm, _ | .angle, _ => [f.value 0, f.value 1]
  | .sqrt, _ | .roundToIntegral, _ | .powerLessOne, _ | .trig _, _ => [f.value 0]
  | _, _ => []

/-- The unit after an instruction that computes has written its result. -/
def delivered (f : Fpu) (x : Extended) : FloatInstruction → Fpu
  | .arithInto _ i pops => (f.store i x).poppedIf pops
  | .timesLogarithm | .angle => (f.store 1 x).pop
  | .trig .tan => (f.store 0 x).pushNumber x
  | _ => f.store 0 x

/-- The exception of a zero divisor. -/
def divisorExceptions (c : Config) (op : FloatOp) (a b : Extended) : Word :=
  match op.quotientOf? a b with
  | some (dividend, divisor) =>
    if FloatExec.raisesZeroDivide c dividend divisor then Exception.zeroDivide else 0
  | none => 0

/-- The exception of a denormal operand. -/
def denormalExceptions (denormal : Bool) : Word := if denormal then Exception.denormal else 0

/-- The exceptions of an instruction that has a quiet NaN among its operands, and no NaN that
signals. -/
def nanExceptions (c : Config) (f : Fpu) : FloatInstruction → FloatOperand → Word
  | .arithMemory op _, .number loaded =>
    denormalExceptions loaded.denormal ||| divisorExceptions c op (f.value 0) loaded.value
  | .arithTop op i, _ => divisorExceptions c op (f.value 0) (f.value i)
  | .arithInto op i _, _ => divisorExceptions c op (f.value i) (f.value 0)
  | .remainder, _ =>
    denormalExceptions (f.value 0).isDenormal ||| denormalExceptions (f.value 1).isDenormal
  | .powerLessOne, _ => Exception.invalid
  | _, _ => 0

/-- A quiet NaN among the operands was delivered. -/
def DeliversNan (i : FloatInstruction) (operand : FloatOperand) (f f' : Fpu) : Prop :=
  ∃ q ∈ i.operands f operand, q.classify = .quietNan ∧ (i.delivered f q).SameStack f'

end FloatInstruction

namespace FloatExec

open FloatInstruction

variable {i : FloatInstruction} {operand : FloatOperand} {a b x : Extended} {op : FloatOp}

/-! ## Arithmetic -/

/-- A division looks for a zero divisor before it looks for NaNs. -/
theorem checkDivisor_raises :
    Raises (checkDivisor p op a b : FloatExec H Unit) c f (divisorExceptions c op a b)
      fun _ g => f.SameStack g := by
  unfold checkDivisor divisorExceptions
  cases op.quotientOf? a b with
  | none => exact .pure (.refl f)
  | some quotient =>
    refine Leaves.config (d := fun config =>
      if raisesZeroDivide config quotient.1 quotient.2 = true then raise p Exception.zeroDivide
        else pure ()) (fun _ => rfl) ?_
    exact Raises.raiseIf (.raise (by decide))

/-- With a quiet NaN among two operands, and no signaling one, a quiet NaN is stored. -/
theorem arith_raises {j : Nat} (h : a.Quiet b) :
    Raises (arith p op j a b : FloatExec H Unit) c f (divisorExceptions c op a b)
      fun _ g => ∃ q ∈ [a, b], q.classify = .quietNan ∧ (f.store j q).SameStack g := by
  unfold arith
  refine checkDivisor_raises.last fun _ g hg => .view ?_
  obtain ⟨q, hq, hquiet, hr⟩ := h.apply op g.rounding
  rw [hr]
  refine (Raises.storeExact j BitVec.zero_and).mono ?_
  rintro _ _ rfl
  exact ⟨q, hq, hquiet, hg.store j q⟩

theorem arithLoaded_raises {format : NumberFormat} {loaded : Loaded} (hfull : f.tag 0 ≠ .empty)
    (h : (f.value 0).Quiet loaded.value) :
    Raises (arithLoaded p op loaded : FloatExec H Unit) c f
      (nanExceptions c f (.arithMemory op format) (.number loaded))
      fun _ g => DeliversNan (.arithMemory op format) (.number loaded) f g := by
  refine Raises.requireFull hfull (Raises.raiseWhen (.raise (by decide)) fun g hg => .view ?_)
  rw [hg.value_eq]
  refine (arith_raises h).mono ?_
  rintro _ f' ⟨q, hq, hquiet, hstack⟩
  exact ⟨q, hq, hquiet, (hg.store 0 q).trans hstack⟩

theorem arithTop_raises {j : Nat} (hfull : f.tag 0 ≠ .empty) (hfull' : f.tag j ≠ .empty)
    (h : (f.value 0).Quiet (f.value j)) :
    Raises (arithTop p op j : FloatExec H Unit) c f (nanExceptions c f (.arithTop op j) operand)
      fun _ g => DeliversNan (.arithTop op j) operand f g := by
  refine Raises.requireFull hfull (Raises.requireFull hfull' (.view (.view ?_)))
  refine (arith_raises h).mono ?_
  rintro _ f' ⟨q, hq, hquiet, hstack⟩
  exact ⟨q, hq, hquiet, hstack⟩

theorem arithInto_raises {j : Nat} {pops : Bool} (hfull : f.tag 0 ≠ .empty)
    (hfull' : f.tag j ≠ .empty) (h : (f.value j).Quiet (f.value 0)) :
    Raises (arithInto p op j pops : FloatExec H Unit) c f
      (nanExceptions c f (.arithInto op j pops) operand)
      fun _ g => DeliversNan (.arithInto op j pops) operand f g := by
  refine Raises.requireFull hfull (Raises.requireFull hfull' (.view (.view ?_)))
  refine (arith_raises h).last ?_
  rintro _ g ⟨q, hq, hquiet, hstack⟩
  refine (Raises.popIf pops).mono ?_
  rintro _ _ rfl
  exact ⟨q, hq, hquiet, hstack.poppedIf pops⟩

/-! ## One register -/

/-- A quiet NaN is its own root. -/
theorem sqrt_raises (hfull : f.tag 0 ≠ .empty) (h : (f.value 0).classify = .quietNan) :
    Raises (sqrt p : FloatExec H Unit) c f 0 fun _ g => (f.store 0 (f.value 0)).SameStack g := by
  have hroot (mode : Rounding) : (f.value 0).sqrt mode = .exact (f.value 0) := by
    rw [Extended.sqrt, if_pos (Extended.isNan_of_quiet h), Extended.quiet_of_quiet h,
      Extended.isSignaling_of_quiet h]
    rfl
  refine Raises.requireFull hfull (.view ?_)
  simp only [checkDenormal, Extended.isDenormal_of_quiet h, Bool.false_eq_true, if_false, pure_bind]
  refine .view ?_
  rw [hroot]
  exact (Raises.storeExact 0 rfl).mono fun _ _ hg => hg ▸ .refl _

theorem roundToIntegral_raises (hfull : f.tag 0 ≠ .empty) (h : (f.value 0).classify = .quietNan) :
    Raises (roundToIntegral p : FloatExec H Unit) c f 0
      fun _ g => (f.store 0 (f.value 0)).SameStack g := by
  refine Raises.requireFull hfull (.view ?_)
  simp only [Extended.isNan_of_quiet h, Extended.isSignaling_of_quiet h,
    Extended.quiet_of_quiet h, if_true, Bool.false_eq_true, if_false]
  exact Raises.update rfl (.refl _)

/-- The operand is checked like that of a comparison. -/
theorem powerLessOne_raises (hfull : f.tag 0 ≠ .empty) (h : (f.value 0).classify = .quietNan) :
    Raises (powerLessOne p : FloatExec H Unit) c f Exception.invalid
      fun _ g => (f.store 0 (f.value 0)).SameStack g := by
  have hpower : (f.value 0).powerLessOne = .exact (f.value 0) := by
    rw [Extended.powerLessOne, Extended.firstNan?, if_pos (by simp [Extended.isNan_of_quiet h])]
    simp only [ite_self, Extended.quiet_of_quiet h, Extended.isSignaling_of_quiet h]
    rfl
  refine Raises.requireFull hfull (.view ?_)
  simp only [checkOperand, Extended.isDenormal_of_quiet h, Extended.isNan_of_quiet h,
    Bool.or_self, Bool.false_eq_true, if_false, if_true, hpower]
  refine (Raises.raise (by decide)).last fun _ g hg => ?_
  exact (Raises.storeExact 0 rfl).mono fun _ _ hg' => hg' ▸ hg.store 0 _

theorem trig_raises {angle : Trig} (hfull : f.tag 0 ≠ .empty)
    (hroom : angle = .tan → f.tag 7 = .empty) (h : (f.value 0).classify = .quietNan) :
    Raises (trig p angle : FloatExec H Unit) c f 0
      fun _ g => (delivered f (f.value 0) (.trig angle)).SameStack g := by
  have hwrite (g : Fpu) : Raises (update (·.store 0 (f.value 0)) : FloatExec H Unit) c g 0
      fun _ g' => g' = g.store 0 (f.value 0) := .update rfl rfl
  refine Raises.requireFull hfull ?_
  cases angle with
  | tan =>
    simp only [if_true]
    refine Raises.requireRoom (hroom rfl) (.view ?_)
    simp only [Extended.isNan_of_quiet h, Extended.isSignaling_of_quiet h,
      Extended.quiet_of_quiet h, if_true, Bool.false_eq_true, if_false, storeTwice]
    refine (hwrite f).last ?_
    rintro _ g rfl
    exact Raises.update rfl (.refl _)
  | sin | cos =>
    simp only [reduceCtorEq, if_false]
    refine .view ?_
    simp only [Extended.isNan_of_quiet h, Extended.isSignaling_of_quiet h,
      Extended.quiet_of_quiet h, if_true, Bool.false_eq_true, if_false, storeTwice, reduceCtorEq]
    refine (hwrite f).last ?_
    rintro _ g rfl
    exact .pure (.refl _)

/-! ## Two registers -/

theorem scale_raises (hfull : f.tag 0 ≠ .empty) (hfull' : f.tag 1 ≠ .empty)
    (h : (f.value 0).Quiet (f.value 1)) :
    Raises (scale p : FloatExec H Unit) c f 0 fun _ g => DeliversNan .scale operand f g := by
  obtain ⟨r, hr, q, hq, hquiet, rfl⟩ := h.firstNan?
  have hscaled : (f.value 0).scaleByNumber f.rounding (f.value 1) = .exact q := by
    rw [Extended.scaleByNumber, hr]
  refine Raises.requireFull hfull (Raises.requireFull hfull' (.view (.view (.view ?_))))
  rw [hscaled]
  refine (Raises.storeExact 0 rfl).mono ?_
  rintro _ _ rfl
  exact ⟨q, hq, hquiet, .refl _⟩

/-- The conditions of a division are no exceptions. -/
theorem remainderConditions_same (r : PartialRemainder) (g : Fpu) :
    g.SameExceptions (remainderConditions r g) ∧ g.SameStack (remainderConditions r g) := by
  have hpartial : g.SameExceptions (g.setCondition Status.c2 (!r.complete)) :=
    g.sameExceptions_setCondition (by decide) _
  have hstack := g.sameStack_setCondition Status.c2 (!r.complete)
  unfold remainderConditions
  split
  · refine ⟨?_, ((hstack.setCondition _ _).setCondition _ _).setCondition _ _⟩
    exact ((hpartial.setCondition (by decide) _).setCondition (by decide) _).setCondition
      (by decide) _
  · exact ⟨hpartial, hstack⟩

/-- A remainder checks both its operands for denormal numbers before it looks for NaNs. -/
theorem remainder_raises (hfull : f.tag 0 ≠ .empty) (hfull' : f.tag 1 ≠ .empty)
    (h : (f.value 0).Quiet (f.value 1)) :
    Raises (remainder p : FloatExec H Unit) c f (nanExceptions c f .remainder operand)
      fun _ g => DeliversNan .remainder operand f g := by
  obtain ⟨r, hr, q, hq, hquiet, rfl⟩ := h.nanResult?
  have hdone : (f.value 0).partialRemainder (f.value 1) = .done (.exact q) := by
    rw [Extended.partialRemainder, hr]
  refine Raises.requireFull hfull (Raises.requireFull hfull' (.view (.view ?_)))
  refine (Raises.checkDenormal _).andThen fun g hg => ?_
  refine (Raises.checkDenormal _).last fun _ g' hg' => ?_
  obtain ⟨hexceptions, hstack⟩ :=
    remainderConditions_same (.done (.exact q))
      (g'.store 0 (PartialRemainder.done (.exact q)).value)
  have hwrite : Raises (update fun f => remainderConditions (.done (.exact q))
      (f.store 0 (PartialRemainder.done (.exact q)).value) : FloatExec H Unit) c g' 0
      fun _ f' => DeliversNan .remainder operand f f' := by
    refine .update hexceptions ⟨q, hq, hquiet, ?_⟩
    exact ((hg.trans hg').store 0 q).trans hstack
  -- Neither of the two checks of the result has anything to raise.
  have hnone : (PartialRemainder.done (.exact q)).exceptions = 0 := rfl
  have hnone' : (0 : Word) &&& ~~~Exception.invalid = 0 := BitVec.zero_and
  dsimp only
  rw [hdone, hnone, raiseIfAmong_zero, pure_bind, hnone', raiseAfter_zero, bind_pure]
  exact hwrite

/-- The two top registers are combined into the second one. -/
theorem combine_raises {compute : Extended → Extended → Rounded}
    (hcompute : ∀ y x r, Extended.firstNan? x y = some r → compute y x = r)
    (hfull : f.tag 0 ≠ .empty) (hfull' : f.tag 1 ≠ .empty) (h : (f.value 0).Quiet (f.value 1)) :
    Raises (combine p compute : FloatExec H Unit) c f 0
      fun _ g => ∃ q ∈ [f.value 0, f.value 1], q.classify = .quietNan ∧
        (f.store 1 q).pop.SameStack g := by
  obtain ⟨r, hr, q, hq, hquiet, rfl⟩ := h.firstNan?
  refine Raises.requireFull hfull (Raises.requireFull hfull' (.view (.view ?_)))
  have hnone : (Rounded.exact q).exceptions = 0 := rfl
  rw [hcompute _ _ _ hr]
  dsimp only
  rw [hnone, raiseIfAmong_zero, raiseIfAmong_zero, pure_bind, pure_bind]
  refine (Raises.storeExact 1 BitVec.zero_and).last ?_
  rintro _ g rfl
  exact Raises.update rfl ⟨q, hq, hquiet, .refl _⟩

/-! ## Programs -/

theorem quiet_of_operand (hoperands : i.operands f operand = [x])
    (hquiet : ∃ x ∈ i.operands f operand, x.classify = .quietNan) : x.classify = .quietNan := by
  simpa [hoperands] using hquiet

theorem quiet_of_operands (hoperands : i.operands f operand = [a, b])
    (hquiet : ∃ x ∈ i.operands f operand, x.classify = .quietNan)
    (hnone : ∀ x ∈ i.operands f operand, x.isSignaling = false) : a.Quiet b where
  nan := by simpa [hoperands] using hquiet
  left := hnone a (by simp [hoperands])
  right := hnone b (by simp [hoperands])

/-- Each computation that delivers a quiet NaN, with the exceptions that it raises on the way. -/
theorem program_raises [Host H] (htakes : i.Takes operand) (hfull : ¬i.Underflows f)
    (hroom : ¬i.Overflows f) (hquiet : ∃ x ∈ i.operands f operand, x.classify = .quietNan)
    (hnone : ∀ x ∈ i.operands f operand, x.isSignaling = false) :
    Raises (i.program p operand : FloatExec H Unit) c f (nanExceptions c f i operand)
      fun _ g => i.DeliversNan operand f g := by
  have htag (j : Nat) (hj : j ∈ i.reads) : f.tag j ≠ .empty := fun he => hfull ⟨j, hj, he⟩
  -- The only operand is the NaN.
  have htop (hi : i.operands f operand = [f.value 0])
      (hx : Raises (i.program p operand : FloatExec H Unit) c f (nanExceptions c f i operand)
        fun _ g => (i.delivered f (f.value 0)).SameStack g) :
      Raises (i.program p operand : FloatExec H Unit) c f (nanExceptions c f i operand)
        fun _ g => i.DeliversNan operand f g :=
    hx.mono fun _ _ hg => ⟨f.value 0, by simp [hi], quiet_of_operand hi hquiet, hg⟩
  cases i with
  | arithMemory op format =>
    obtain ⟨loaded, rfl⟩ := htakes
    exact arithLoaded_raises (htag 0 (by simp [reads])) (quiet_of_operands rfl hquiet hnone)
  | arithTop op j =>
    exact arithTop_raises (htag 0 (by simp [reads])) (htag j (by simp [reads]))
      (quiet_of_operands rfl hquiet hnone)
  | arithInto op j pops =>
    exact arithInto_raises (htag 0 (by simp [reads])) (htag j (by simp [reads]))
      (quiet_of_operands rfl hquiet hnone)
  | sqrt =>
    exact htop rfl (sqrt_raises (htag 0 (by simp [reads])) (quiet_of_operand rfl hquiet))
  | roundToIntegral =>
    exact htop rfl (roundToIntegral_raises (htag 0 (by simp [reads])) (quiet_of_operand rfl hquiet))
  | powerLessOne =>
    exact htop rfl (powerLessOne_raises (htag 0 (by simp [reads])) (quiet_of_operand rfl hquiet))
  | trig angle =>
    refine htop rfl (trig_raises (htag 0 (by simp [reads])) ?_ (quiet_of_operand rfl hquiet))
    rintro rfl
    exact not_not.1 fun hne => hroom ⟨rfl, hne⟩
  | scale =>
    exact scale_raises (htag 0 (by simp [reads])) (htag 1 (by simp [reads]))
      (quiet_of_operands rfl hquiet hnone)
  | remainder =>
    exact remainder_raises (htag 0 (by simp [reads])) (htag 1 (by simp [reads]))
      (quiet_of_operands rfl hquiet hnone)
  | timesLogarithm =>
    have hcompute : ∀ y x r, Extended.firstNan? x y = some r → y.timesLogarithm x = r :=
      fun _ _ _ h => by rw [Extended.timesLogarithm, h]
    exact combine_raises hcompute (htag 0 (by simp [reads])) (htag 1 (by simp [reads]))
      (quiet_of_operands rfl hquiet hnone)
  | angle =>
    have hcompute : ∀ y x r, Extended.firstNan? x y = some r → y.angle x = r :=
      fun _ _ _ h => by rw [Extended.angle, h]
    exact combine_raises hcompute (htag 0 (by simp [reads])) (htag 1 (by simp [reads]))
      (quiet_of_operands rfl hquiet hnone)
  | _ => simp [operands] at hquiet

end FloatExec

/-! ## Steps -/

theorem Fpu.SameStack.delivered (h : f.SameStack g) (i : FloatInstruction) (x : Extended) :
    (i.delivered f x).SameStack (i.delivered g x) := by
  cases i with
  | arithInto op j pops => exact (h.store j x).poppedIf pops
  | timesLogarithm | angle => exact (h.store 1 x).pop
  | trig angle =>
    cases angle with
    | tan => exact (h.store 0 x).pushNumber x
    | sin | cos => exact h.store 0 x
  | _ => exact h.store 0 x

/-- The operands of all instructions but one raise no invalid operation. -/
theorem FloatInstruction.nanExceptions_and_invalid {i : FloatInstruction} {operand : FloatOperand}
    (hi : i ≠ .powerLessOne) : i.nanExceptions c f operand &&& Exception.invalid = 0 := by
  have hdenormal (denormal : Bool) : denormalExceptions denormal &&& Exception.invalid = 0 := by
    cases denormal <;> decide
  have hdivisor (op : FloatOp) (a b : Extended) :
      divisorExceptions c op a b &&& Exception.invalid = 0 := by
    unfold divisorExceptions
    split
    · split <;> decide
    · decide
  have hor {a b : Word} (ha : a &&& Exception.invalid = 0) (hb : b &&& Exception.invalid = 0) :
      (a ||| b) &&& Exception.invalid = 0 := (Fpu.or_and_eq_left hb).trans ha
  cases i with
  | arithMemory op format =>
    cases operand with
    | number loaded => exact hor (hdenormal _) (hdivisor _ _ _)
    | _ => exact BitVec.zero_and
  | arithTop | arithInto => exact hdivisor _ _ _
  | remainder => exact hor (hdenormal _) (hdenormal _)
  | powerLessOne => exact absurd rfl hi
  | _ => exact BitVec.zero_and

section Steps

open Host

variable [Host H] {m : Machine H} {start : FloatStart}

/-- An instruction that computes with a quiet NaN, and with no NaN that signals.  It raises no
invalid operation, unless it is the power.  It is stopped when another exception of its operands
is not masked, and otherwise it delivers a quiet NaN. -/
theorem Machine.quietNan_step (h : m.Ready start) (hfull : ¬start.instruction.Underflows m.fpu)
    (hroom : ¬start.instruction.Overflows m.fpu)
    (hquiet : ∃ x ∈ start.instruction.operands m.fpu start.operand, x.classify = .quietNan)
    (hnone : ∀ x ∈ start.instruction.operands m.fpu start.operand, x.isSignaling = false) :
    m.step.1 = .completed ∧
      (start.instruction ≠ .powerLessOne →
        m.step.2.fpu.status &&& Exception.invalid = m.fpu.status &&& Exception.invalid) ∧
      (m.step.2.fpu.isPending = true ↔ m.fpu.unmasked
        (start.instruction.nanExceptions m.config m.fpu start.operand) ≠ 0) ∧
      (m.step.2.fpu.isPending = true → m.fpu.SameStack m.step.2.fpu) ∧
      (m.step.2.fpu.isPending = false →
        m.step.2.fpu.status &&& Status.exceptions = (m.fpu.status |||
          start.instruction.nanExceptions m.config m.fpu start.operand) &&& Status.exceptions ∧
        start.instruction.DeliversNan start.operand m.fpu m.step.2.fpu) := by
  have hprogram : (start.program : FloatExec H Unit).Raises m.config m.fpu.readied
      (start.instruction.nanExceptions m.config m.fpu start.operand)
      fun _ g => start.instruction.DeliversNan start.operand m.fpu.readied g :=
    FloatExec.program_raises (f := m.fpu.readied) h.takes hfull hroom hquiet hnone
  obtain ⟨hcompleted, hend⟩ := h.step_of_raises hprogram
  refine ⟨hcompleted, fun hi => ?_, ?_⟩
  · have hinvalid : start.instruction.nanExceptions m.config m.fpu start.operand &&&
        Exception.invalid = 0 := FloatInstruction.nanExceptions_and_invalid hi
    rcases hend with ⟨hsurvives, -⟩ | hstopped
    · exact hsurvives.status_and (by decide) hinvalid
    · exact hstopped.others _ (by decide) hinvalid
  · rcases hend with ⟨hsurvives, f', ⟨q, hq, hquiet, hstack⟩, hstack'⟩ | hstopped
    · have hidle := hsurvives.pending.trans h.idle
      have hdelivered := m.fpu.sameStack_readied.delivered start.instruction q
      refine ⟨iff_of_false (by simp [hidle]) (by simp [hsurvives.masked]), by simp [hidle], ?_⟩
      exact fun _ => ⟨hsurvives.exceptions, q, hq, hquiet, (hdelivered.trans hstack).trans hstack'⟩
    · refine ⟨iff_of_true hstopped.pending hstopped.unmasked, fun _ => hstopped.stack, ?_⟩
      simp [hstopped.pending]

end Steps

/-- A quiet NaN. -/
def Extended.someNan : Extended := ⟨false, specialExponent, 0xC000000000000001⟩

/-- A machine before it divides a quiet NaN by a denormal number and keeps the remainder. -/
def Machine.dividingNan : Machine Ram :=
  .running #[0xD9, 0xF8] ((Fpu.initial.store 0 .someNan).store 1 ⟨false, 0, 1⟩)

/-- The denormal divisor is reported, and the remainder is the NaN. -/
theorem Machine.quietNan_step_dividingNan :
    (dividingNan.Ready ⟨{ start := 0 }, 1, .ofByte 0xF8, .remainder, .none⟩ ∧
      ¬FloatInstruction.remainder.Underflows dividingNan.fpu ∧
      ¬FloatInstruction.remainder.Overflows dividingNan.fpu) ∧
    dividingNan.step.1 = .completed ∧ dividingNan.step.2.fpu.isPending = false ∧
      dividingNan.step.2.fpu.status &&& Status.exceptions = Exception.denormal ∧
      dividingNan.step.2.fpu.st 0 = .someNan := by
  have hready : dividingNan.Ready ⟨{ start := 0 }, 1, .ofByte 0xF8, .remainder, .none⟩ :=
    ⟨by decide +kernel, rfl, rfl, by decide, by decide⟩
  have hfull : ¬FloatInstruction.remainder.Underflows dividingNan.fpu := by
    rintro ⟨j, hj, hempty⟩
    rcases List.mem_pair.1 hj with rfl | rfl
    · exact absurd hempty (by decide)
    · exact absurd hempty (by decide)
  have hroom := FloatInstruction.not_overflows (i := .remainder) (f := dividingNan.fpu) rfl
  have hoperands : FloatInstruction.remainder.operands dividingNan.fpu .none =
      [.someNan, ⟨false, 0, 1⟩] := by decide
  obtain ⟨hcompleted, -, hpending, -, hdelivers⟩ := quietNan_step hready hfull hroom
    (hoperands ▸ ⟨.someNan, by decide, by decide⟩) (hoperands ▸ by decide)
  have hidle : dividingNan.step.2.fpu.isPending = false := by
    rw [← Bool.not_eq_true, hpending]
    decide
  obtain ⟨hexceptions, q, hq, hquiet, hstack⟩ := hdelivers hidle
  rw [hoperands] at hq
  refine ⟨⟨hready, hfull, hroom⟩, hcompleted, hidle, hexceptions, ?_⟩
  rcases List.mem_pair.1 hq with rfl | rfl
  · exact (hstack.st_eq 0).trans (Fpu.st_store_self _ 0 _)
  · exact absurd hquiet (by decide)

/-- A machine before it takes two to the power of a quiet NaN. -/
def Machine.poweringNan : Machine Ram :=
  .running #[0xD9, 0xF0] (Fpu.initial.store 0 .someNan)

/-- It reports an invalid operation. -/
theorem Machine.invalid_of_poweringNan :
    poweringNan.floatStart? = some ⟨{ start := 0 }, 1, .ofByte 0xF0, .powerLessOne, .none⟩ ∧
      poweringNan.fpu.tag 0 ≠ .empty ∧ (poweringNan.fpu.st 0).classify = .quietNan ∧
      poweringNan.fpu.unmasked Status.exceptions = 0 ∧
      poweringNan.fpu.status &&& Exception.invalid = 0 ∧
      poweringNan.step.1 = .completed ∧
      poweringNan.step.2.fpu.status &&& Exception.invalid = Exception.invalid := by
  decide +kernel

end Ia32
