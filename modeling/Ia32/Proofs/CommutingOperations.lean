import Ia32.Instr.Fpu.Compute
import Ia32.Proofs.NumericalOrder

/-!
# Operations whose operands trade places

Sums and products do not depend on the order of their operands, in any direction
of rounding and for any encodings, with one exception.  Of two NaNs the one with
the larger significand is delivered, and the significands may be equal below the
top bit (`Extended.Tied`).  Then the first one is delivered, and its sign or
the top bit of its significand may differ from the other's.  A tie that the
positive one won would make the operations symmetric.
-/

namespace Ia32

namespace Extended

/-! ## Choosing between NaNs -/

/-- Two NaNs whose significands are equal below the top bit. -/
structure Tied (a b : Extended) : Prop where
  left : a.isNan = true
  right : b.isNan = true
  significands : a.significand <<< 1 = b.significand <<< 1

instance (a b : Extended) : Decidable (a.Tied b) :=
  decidable_of_iff
    (a.isNan = true ∧ b.isNan = true ∧ a.significand <<< 1 = b.significand <<< 1)
    ⟨fun h => ⟨h.1, h.2.1, h.2.2⟩, fun h => ⟨h.left, h.right, h.significands⟩⟩

/-- Two NaNs whose order decides which one is delivered. -/
def OrderMatters (a b : Extended) : Prop := a.Tied b ∧ a.quiet ≠ b.quiet

instance (a b : Extended) : Decidable (a.OrderMatters b) :=
  inferInstanceAs (Decidable (_ ∧ _))

variable {a b : Extended}

theorem Tied.symm (h : a.Tied b) : b.Tied a := ⟨h.right, h.left, h.significands.symm⟩

theorem Tied.chooseNan_eq (h : a.Tied b) : chooseNan a b = a := by
  simp [chooseNan, h.left, h.right, h.significands]

theorem chooseNan_eq_of_lt (ha : a.isNan = true) (h : b.significand <<< 1 < a.significand <<< 1) :
    chooseNan a b = a := by
  cases hb : b.isNan with
  | false => simp [chooseNan, ha, hb]
  | true => simp [chooseNan, ha, hb, BitVec.le_of_lt h]

theorem chooseNan_eq_of_gt (ha : a.isNan = true) (hb : b.isNan = true)
    (h : b.significand <<< 1 < a.significand <<< 1) : chooseNan b a = a := by
  simp [chooseNan, ha, hb, BitVec.not_le.mpr h]

/-- Two numbers with a NaN among them choose the same one in either order, unless they tie. -/
theorem chooseNan_comm (hnan : a.isNan = true ∨ b.isNan = true) (h : ¬a.Tied b) :
    chooseNan a b = chooseNan b a := by
  cases ha : a.isNan with
  | false =>
    have hb : b.isNan = true := by simpa [ha] using hnan
    simp [chooseNan, ha, hb]
  | true =>
    cases hb : b.isNan with
    | false => simp [chooseNan, ha, hb]
    | true =>
      -- one of the significands is larger, for the NaNs do not tie
      have hne : (a.significand <<< 1).toNat ≠ (b.significand <<< 1).toNat :=
        fun heq => h ⟨ha, hb, BitVec.eq_of_toNat_eq heq⟩
      rcases Nat.lt_or_gt_of_ne hne with hlt | hgt
      · rw [chooseNan_eq_of_gt hb ha hlt, chooseNan_eq_of_lt hb hlt]
      · rw [chooseNan_eq_of_lt ha hgt, chooseNan_eq_of_gt ha hb hgt]

/-- The chosen NaN, made quiet, is the same in either order unless the order matters. -/
theorem quiet_chooseNan_comm (hnan : a.isNan = true ∨ b.isNan = true) (h : ¬a.OrderMatters b) :
    (chooseNan a b).quiet = (chooseNan b a).quiet := by
  by_cases htied : a.Tied b
  · rw [htied.chooseNan_eq, htied.symm.chooseNan_eq]
    by_contra hne
    exact h ⟨htied, hne⟩
  · rw [chooseNan_comm hnan htied]

theorem nanResult?_of_nan (hnan : a.isNan = true ∨ b.isNan = true) :
    nanResult? a b = some ⟨(chooseNan a b).quiet,
      if a.isSignaling || b.isSignaling then Exception.invalid else 0⟩ := by
  simp [nanResult?, hnan]

theorem nanResult?_comm (h : ¬a.OrderMatters b) : nanResult? a b = nanResult? b a := by
  by_cases hnan : a.isNan = true ∨ b.isNan = true
  · rw [nanResult?_of_nan hnan, nanResult?_of_nan hnan.symm, quiet_chooseNan_comm hnan h,
      Bool.or_comm]
  · rw [not_or, Bool.not_eq_true, Bool.not_eq_true] at hnan
    simp [nanResult?, hnan.1, hnan.2]

/-! ## Numbers -/

/-- Two numbers with one exponent are added in either order: neither is moved, and the sign is that
of the larger significand. -/
theorem addAligned_comm (mode : Rounding) (h : a.topExponent = b.topExponent) :
    addAligned mode a b = addAligned mode b a := by
  have hmoved (m : Nat) : aligned m 0 = m <<< guardBits := rfl
  unfold addAligned
  dsimp only
  rw [h, sub_self, Int.toNat_zero, hmoved, hmoved]
  generalize a.significand.toNat <<< guardBits = m
  generalize b.significand.toNat <<< guardBits = n
  by_cases hsign : a.sign = b.sign
  · rw [if_pos hsign, if_pos hsign.symm, hsign, Nat.add_comm]
  · rw [if_neg hsign, if_neg (Ne.symm hsign)]
    rcases Nat.lt_trichotomy m n with hlt | rfl | hgt
    · rw [if_neg hlt.not_gt, if_pos hlt, if_pos hlt]
    · simp only [Nat.lt_irrefl, if_false]
    · rw [if_pos hgt, if_neg hgt.not_gt, if_pos hgt]

/-- Numbers are added in either order: the one with the larger exponent is taken first. -/
theorem addNumbers_comm (mode : Rounding) (a b : Extended) :
    addNumbers mode a b = addNumbers mode b a := by
  cases hia : a.isInfinite with
  | true =>
    have ha := eq_infinity_of_isInfinite hia
    cases hib : b.isInfinite with
    | true =>
      have hb := eq_infinity_of_isInfinite hib
      by_cases hsign : a.sign = b.sign
      · rw [hsign, ← hb] at ha
        rw [ha]
      · simp [addNumbers, hia, hib, hsign, Ne.symm hsign]
    | false => simp [addNumbers, hia, hib, ← ha]
  | false =>
    cases hib : b.isInfinite with
    | true => simp [addNumbers, hia, hib, ← eq_infinity_of_isInfinite hib]
    | false =>
      cases hza : a.isZero with
      | true =>
        cases hzb : b.isZero with
        | true =>
          by_cases hsign : a.sign = b.sign
          · simp [addNumbers, hia, hib, hza, hzb, hsign]
          · simp [addNumbers, hia, hib, hza, hzb, hsign, Ne.symm hsign]
        | false => simp [addNumbers, hia, hib, hza, hzb]
      | false =>
        cases hzb : b.isZero with
        | true => simp [addNumbers, hia, hib, hza, hzb]
        | false =>
          simp only [addNumbers, hia, hib, hza, hzb, Bool.false_eq_true, Bool.false_and, if_false]
          rcases lt_trichotomy a.topExponent b.topExponent with hlt | heq | hgt
          · rw [if_neg hlt.not_ge, if_pos hlt.le]
          · rw [if_pos heq.ge, if_pos heq.le, addAligned_comm mode heq]
          · rw [if_pos hgt.le, if_neg hgt.not_ge]

theorem mulNumbers_comm (mode : Rounding) (a b : Extended) :
    mulNumbers mode a b = mulNumbers mode b a := by
  simp only [mulNumbers, bne_comm (a := a.sign), Bool.or_comm a.isInfinite,
    Bool.or_comm a.isZero, Nat.mul_comm a.significand.toNat, add_comm a.scale]

/-! ## Operations -/

/-- An operation that delivers a NaN among its operands, and that computes with numbers in either
order. -/
structure IsSymmetric (f numbers : Extended → Extended → Rounded) : Prop where
  eq_getD : ∀ a b, f a b = (nanResult? a b).getD (numbers a b)
  comm : ∀ a b, numbers a b = numbers b a

theorem isSymmetric_add (mode : Rounding) :
    IsSymmetric (FloatOp.add.apply mode) (addNumbers mode) :=
  ⟨fun _ _ => rfl, addNumbers_comm mode⟩

theorem isSymmetric_mul (mode : Rounding) :
    IsSymmetric (FloatOp.mul.apply mode) (mulNumbers mode) :=
  ⟨fun _ _ => rfl, mulNumbers_comm mode⟩

namespace IsSymmetric

variable {f numbers : Extended → Extended → Rounded} (h : IsSymmetric f numbers)
include h

theorem eq_of_nan (hnan : a.isNan = true ∨ b.isNan = true) :
    f a b = ⟨(chooseNan a b).quiet,
      if a.isSignaling || b.isSignaling then Exception.invalid else 0⟩ := by
  rw [h.eq_getD, nanResult?_of_nan hnan, Option.getD_some]

/-- Of two NaNs the one with the larger significand is delivered, in either order. -/
theorem value_of_lt (ha : a.isNan = true) (hb : b.isNan = true)
    (hlt : b.significand <<< 1 < a.significand <<< 1) :
    (f a b).value = a.quiet ∧ (f b a).value = a.quiet := by
  rw [h.eq_of_nan (.inl ha), h.eq_of_nan (.inr ha), chooseNan_eq_of_lt ha hlt,
    chooseNan_eq_of_gt ha hb hlt]
  exact ⟨rfl, rfl⟩

/-- Of two NaNs that tie the first one is delivered. -/
theorem value_of_tied (htied : a.Tied b) : (f a b).value = a.quiet := by
  rw [h.eq_of_nan (.inl htied.left), htied.chooseNan_eq]

theorem exceptions_comm : (f a b).exceptions = (f b a).exceptions := by
  by_cases hnan : a.isNan = true ∨ b.isNan = true
  · rw [h.eq_of_nan hnan, h.eq_of_nan hnan.symm, Bool.or_comm]
  · rw [not_or, Bool.not_eq_true, Bool.not_eq_true] at hnan
    simp [h.eq_getD, nanResult?, hnan.1, hnan.2, h.comm a b]

theorem comm_iff : f a b = f b a ↔ ¬a.OrderMatters b := by
  constructor
  · rintro heq ⟨htied, hne⟩
    apply hne
    rw [← h.value_of_tied htied, heq, h.value_of_tied htied.symm]
  · intro hsame
    rw [h.eq_getD, h.eq_getD, nanResult?_comm hsame, h.comm]

end IsSymmetric

end Extended

namespace FloatExec

variable {H : Type}

/-- Arithmetic writes the same result when its operands trade places, if the operation does and is
no division. -/
theorem arith_comm (p : Prefixes) {op : FloatOp} (i : Nat) {a b : Extended}
    (hop : ∀ a b, op.quotientOf? a b = none)
    (hcomm : ∀ mode, op.apply mode a b = op.apply mode b a) :
    (arith p op i a b : FloatExec H Unit) = arith p op i b a := by
  simp only [arith, checkDivisor, hop, hcomm]

end FloatExec

/-- What trading places means to the operands of an operation. -/
structure FloatOp.Symmetric (op : FloatOp) (a b : Extended) : Prop where
  /-- The exceptions stay. -/
  exceptions : ∀ mode, (op.apply mode a b).exceptions = (op.apply mode b a).exceptions
  /-- The result stays, but for two NaNs that tie and differ when made quiet. -/
  result : ∀ mode, op.apply mode a b = op.apply mode b a ↔ ¬a.OrderMatters b
  /-- Of two NaNs the one with the larger significand is delivered. -/
  larger : ∀ mode, a.isNan = true → b.isNan = true →
    b.significand <<< 1 < a.significand <<< 1 →
    (op.apply mode a b).value = a.quiet ∧ (op.apply mode b a).value = a.quiet
  /-- Of two that tie it is the first one. -/
  tied : ∀ mode, a.Tied b → (op.apply mode a b).value = a.quiet
  /-- So do instructions that compute the operation, from whatever state. -/
  programs : ¬a.OrderMatters b → ∀ (H : Type) (p : Prefixes) (i : Nat),
    (FloatExec.arith p op i a b : FloatExec H Unit) = FloatExec.arith p op i b a

theorem FloatOp.symmetric_of {op : FloatOp} {numbers : Rounding → Extended → Extended → Rounded}
    (h : ∀ mode, Extended.IsSymmetric (op.apply mode) (numbers mode))
    (hop : ∀ a b, op.quotientOf? a b = none) (a b : Extended) : op.Symmetric a b where
  exceptions mode := (h mode).exceptions_comm
  result mode := (h mode).comm_iff
  larger mode := (h mode).value_of_lt
  tied mode := (h mode).value_of_tied
  programs hsame _ p i := FloatExec.arith_comm p i hop fun mode => (h mode).comm_iff.2 hsame

/-- Sums and products of any two encodings are the same in either order, in each direction of
rounding, unless both are NaNs that tie and differ when made quiet. -/
theorem FloatOp.symmetric_add_mul (a b : Extended) :
    FloatOp.add.Symmetric a b ∧ FloatOp.mul.Symmetric a b :=
  ⟨symmetric_of Extended.isSymmetric_add (fun _ _ => rfl) a b,
    symmetric_of Extended.isSymmetric_mul (fun _ _ => rfl) a b⟩

/-- Sums and products of two quiet NaNs that differ in their signs alone are not the same in either
order: each order delivers its first operand. -/
theorem FloatOp.not_comm_of_opposite_nans :
    let positive : Extended := ⟨false, Extended.specialExponent, 0xC000000000000001⟩
    FloatOp.add.apply .nearest positive.neg positive = .exact positive.neg ∧
      FloatOp.add.apply .nearest positive positive.neg = .exact positive ∧
      FloatOp.mul.apply .nearest positive.neg positive = .exact positive.neg ∧
      FloatOp.mul.apply .nearest positive positive.neg = .exact positive ∧
      positive.neg ≠ positive := by
  decide

end Ia32
