import Ia32.Proofs.PartialRemainders

/-!
# Integral values

A number is rounded to an integer by dropping the bits below its point.  The bits
that are kept and the ones that are dropped tell where the magnitude lies between
two naturals (`Rounding.toInteger_of_liesAt`), so that the right one of the two
is taken (`roundToIntegral_eq`).  A number that is integral already stays as it
is (`roundToIntegral_of_eq_int`): only one normal number has a given value that
is not zero (`ofExact_of_normal`), and a number with the least exponent is no
integer.

An integer is given as such when it is below `2 ^ 64` in magnitude, and the
exponent of a normal number tells whether it is (`toInt?_eq`).
-/

namespace Ia32

/-! ## Integers near a number -/

namespace Rounding

/-- A number rounded to an integer.  The nearest one is the one below, when the number is less
than one half above it, or exactly one half and the one below is even. -/
def toInteger (mode : Rounding) (x : ℚ) : ℤ :=
  match mode with
  | .nearest => if Int.fract x < 1 / 2 ∨ Int.fract x = 1 / 2 ∧ Even ⌊x⌋ then ⌊x⌋ else ⌊x⌋ + 1
  | .down => ⌊x⌋
  | .up => ⌈x⌉
  | .zero => Extended.towardZero x

variable (mode : Rounding) {x : ℚ}

@[simp] theorem toInteger_intCast (n : ℤ) : mode.toInteger n = n := by
  cases mode <;> simp [toInteger, Extended.towardZero]

@[simp] theorem toInteger_zero : mode.toInteger 0 = 0 := by
  simpa using mode.toInteger_intCast 0

theorem toInteger_eq_self_iff : (mode.toInteger x : ℚ) = x ↔ ∃ n : ℤ, x = n := by
  constructor
  · exact fun h => ⟨_, h.symm⟩
  · rintro ⟨n, rfl⟩
    rw [toInteger_intCast]

/-- The nearest integer to the opposite of a number: what was below is above, and of two
consecutive integers one is even. -/
theorem toInteger_nearest_neg (x : ℚ) : toInteger .nearest (-x) = -toInteger .nearest x := by
  by_cases hfract : Int.fract x = 0
  · obtain ⟨n, rfl⟩ := Int.fract_eq_zero_iff.1 hfract
    rw [← Int.cast_neg, toInteger_intCast, toInteger_intCast]
  · have hnot : x ∉ Set.range ((↑) : ℤ → ℚ) := fun h => hfract (Int.fract_eq_zero_iff.2 h)
    have hfloor : ⌊-x⌋ = -(⌊x⌋ + 1) := by
      rw [Int.floor_neg, (Int.ceil_eq_floor_add_one_iff_notMem x).2 hnot]
    have heven : Even (-(⌊x⌋ + 1)) ↔ ¬Even ⌊x⌋ := by rw [even_neg, Int.even_add_one]
    simp only [toInteger, hfloor, Int.fract_neg hfract, heven]
    rcases lt_trichotomy (Int.fract x) (1 / 2) with hlt | heq | hgt
    · rw [if_neg, if_pos (.inl hlt)]
      · ring
      · rintro (h | ⟨h, -⟩) <;> linarith
    · rw [heq]
      by_cases h : Even ⌊x⌋ <;> norm_num [h]
    · rw [if_pos (.inl (by linarith)), if_neg]
      rintro (h | ⟨h, -⟩) <;> linarith

/-- The opposite of a number is rounded like it, in the opposite direction. -/
theorem toInteger_neg (x : ℚ) : mode.toInteger (-x) = -mode.opposite.toInteger x := by
  cases mode with
  | nearest => exact toInteger_nearest_neg x
  | down => exact Int.floor_neg
  | up => exact Int.ceil_neg
  | zero =>
    simp only [toInteger, opposite, Extended.towardZero]
    rcases lt_trichotomy x 0 with hneg | rfl | hpos
    · rw [if_pos (by linarith), if_neg hneg.not_ge, Int.floor_neg]
    · simp
    · rw [if_neg (by linarith), if_pos hpos.le, Int.ceil_neg]

theorem toInteger_signed (sign : Bool) (x : ℚ) :
    (mode.toInteger (signed sign x) : ℚ) =
      signed sign ((mode.onMagnitude sign).toInteger x : ℚ) := by
  cases sign with
  | false => rfl
  | true =>
    simp only [signed, onMagnitude, if_true]
    rw [toInteger_neg, Int.cast_neg]

theorem floor_of_liesAt {n : Nat} {half rest : Bool} (h : LiesAt 0 n half rest x) : ⌊x⌋ = n := by
  have hlow := h.lower_le
  have hhigh := h.lt_upper
  rw [zpow_zero, mul_one] at hlow hhigh
  exact Int.floor_eq_iff.2 ⟨hlow, by exact_mod_cast hhigh⟩

theorem toInteger_nearest_of_liesAt {n : Nat} {half rest : Bool} (h : LiesAt 0 n half rest x) :
    toInteger .nearest x = LiesAt.chosen .nearest n half rest := by
  have hfloor := floor_of_liesAt h
  have hfract : Int.fract x = x - n := by rw [Int.fract, hfloor, Int.cast_natCast]
  obtain ⟨hle, hlt, hrest⟩ := h
  rw [zero_sub, zpow_neg_one] at hle hlt hrest
  push_cast at hle hlt hrest
  simp only [toInteger, hfract, hfloor, Int.even_coe_nat]
  cases half with
  | false =>
    -- Less than one half is left.
    simp only [Bool.toNat_false, Nat.cast_zero, add_zero] at hlt
    rw [if_pos (.inl (by linarith))]
    rfl
  | true =>
    simp only [Bool.toNat_true, Nat.cast_one] at hle hrest
    cases rest with
    | true =>
      -- More than one half is left.
      have hgt := hrest.1 rfl
      rw [if_neg]
      · rfl
      · rintro (h | ⟨h, -⟩) <;> linarith
    | false =>
      -- One half is left: the even one of the two.
      have hnot : ¬(2 * (n : ℚ) + 1) * 2⁻¹ < x := fun hgt => nomatch hrest.2 hgt
      have heq : x - n = 1 / 2 := by linarith
      rcases Nat.even_or_odd n with heven | hodd
      · have hmod : n % 2 = 0 := Nat.even_iff.1 heven
        rw [if_pos (.inr ⟨heq, heven⟩), LiesAt.chosen, hmod]
        rfl
      · have hmod : n % 2 = 1 := Nat.odd_iff.1 hodd
        rw [heq, if_neg (by simpa using hodd), LiesAt.chosen, hmod]
        rfl

/-- The bits below the point tell which of two naturals a number is rounded to. -/
theorem toInteger_of_liesAt {n : Nat} {half rest : Bool} (h : LiesAt 0 n half rest x) :
    mode.toInteger x = LiesAt.chosen mode n half rest := by
  have hfloor := floor_of_liesAt h
  cases mode with
  | nearest => exact toInteger_nearest_of_liesAt h
  | down => exact hfloor
  | up =>
    cases hany : half || rest with
    | true =>
      have hlow := h.lower_lt hany
      have hhigh := h.lt_upper.le
      rw [zpow_zero, mul_one] at hlow hhigh
      simp only [LiesAt.chosen, awayFromZero, hany, Bool.not_false, Bool.and_self, if_true]
      refine Int.ceil_eq_iff.2 ⟨?_, by exact_mod_cast hhigh⟩
      push_cast
      linarith
    | false =>
      obtain ⟨rfl, rfl⟩ := Bool.or_eq_false_iff.1 hany
      rw [h.eq_lower, zpow_zero, mul_one]
      exact toInteger_intCast .up n
  | zero =>
    have hnonneg : 0 ≤ x :=
      (mul_nonneg (Nat.cast_nonneg n) (zpow_nonneg two_pos.le 0)).trans h.lower_le
    simp only [toInteger, Extended.towardZero, if_pos hnonneg]
    exact hfloor

end Rounding

/-! ## Numbers that are integers -/

namespace Extended

variable {mode : Rounding} {x : Extended}

theorem exists_int_of_scale_nonneg (h : 0 ≤ x.scale) : ∃ n : ℤ, x.toRat = n := by
  refine ⟨x.multipleOf 0, ?_⟩
  rw [← multipleOf_mul h, zpow_zero, mul_one]

/-- A number that is an integer has no bits below its point. -/
theorem multipleOf_zero_of_eq_int {n : ℤ} (h : x.toRat = n) : x.multipleOf 0 = n := by
  have habs : (x.significand.toNat : ℚ) * 2 ^ x.scale = n.natAbs * 2 ^ (0 : ℤ) := by
    rw [zpow_zero, mul_one, ← abs_toRat, h, Nat.cast_natAbs, Int.cast_abs]
  have hsigned : signed x.sign (n.natAbs : ℚ) = n := by
    rw [← h, toRat, habs, zpow_zero, mul_one]
  rw [multipleOf, shift_eq_of_mul_eq habs, ← Int.cast_inj (α := ℚ), ← hsigned]
  cases x.sign <;> simp [signed]

/-- A number with the least exponent is below one. -/
theorem exponent_ne_zero_of_eq_int (hx : x.isFiniteNonzero = true) {n : ℤ} (h : x.toRat = n) :
    x.exponent ≠ 0 := by
  intro hzero
  have hscale := scale_of_exponent_eq_zero hzero
  have hlog := log2_significand_le x
  have hlt : |x.toRat| < 2 ^ (0 : ℤ) := by
    rw [← not_le, two_zpow_le_abs_iff hx, leadingExponent, hscale]
    omega
  rw [h, zpow_zero] at hlt
  have hint : |n| < 1 := by exact_mod_cast hlt
  rw [Int.abs_lt_one_iff] at hint
  exact toRat_ne_zero hx (by rw [h, hint, Int.cast_zero])

theorem leadingExponent_eq_topExponent (hx : x.isFiniteNonzero = true) (hne : x.exponent ≠ 0) :
    x.leadingExponent = x.topExponent := by
  have htop := le_significand_of_not_isNan (isFiniteNonzero_iff.1 hx).1 hne
  have hlog : x.significand.toNat.log2 = 63 := by
    rw [Nat.log2_eq_iff (by omega)]
    exact ⟨htop, x.significand.isLt⟩
  rw [leadingExponent, hlog, scale]
  omega

/-- There is one normal number with a value. -/
theorem ofExact_of_normal (hx : x.isFiniteNonzero = true) (hne : x.exponent ≠ 0) {n : Nat}
    {place : Int} (h : (n : ℚ) * 2 ^ place = x.significand.toNat * 2 ^ x.scale) :
    ofExact x.sign n place = x := by
  have hn : n ≠ 0 := by
    rintro rfl
    rw [Nat.cast_zero, zero_mul] at h
    exact (magnitude_pos hx).ne h
  have hlead : place + n.log2 = x.topExponent := by
    rw [← leadingExponent_eq_topExponent hx hne]
    apply le_antisymm
    · rw [← two_zpow_le_abs_iff hx, abs_toRat, ← h]
      exact two_zpow_log2_le hn
    · rw [← two_zpow_le_iff (K := ℚ) hn, h, ← abs_toRat]
      exact (two_zpow_le_abs_iff hx).2 le_rfl
  have hsig : shift n (63 - n.log2) = x.significand.toNat := by
    have hshift := shift_eq_of_mul_eq h
    rwa [scale, show place - (x.topExponent - 63) = 63 - n.log2 by omega] at hshift
  have hexponent : x.topExponent + bias = x.exponent.toNat := by
    rw [topExponent, if_neg hne]
    omega
  have hnormal : minExponent ≤ x.topExponent := by
    have hpos : x.exponent.toNat ≠ 0 := fun hz => hne (BitVec.eq_of_toNat_eq hz)
    simp only [minExponent, bias] at hexponent ⊢
    omega
  unfold ofExact
  dsimp only
  rw [if_neg hn, hlead, if_pos hnormal, hexponent, hsig, BitVec.ofInt_natCast, BitVec.ofNat_toNat,
    BitVec.ofNat_toNat, BitVec.setWidth_eq, BitVec.setWidth_eq]

/-- A natural that is not above `2 ^ 64` is encoded as itself. -/
theorem ofExact_zero_spec (sign : Bool) {n : Nat} (hbits : n ≤ 2 ^ 64) :
    (ofExact sign n 0).IsFinite ∧ (ofExact sign n 0).toRat = signed sign (n : ℚ) := by
  by_cases hn : n = 0
  · subst hn
    have hzero : ofExact sign 0 0 = zero sign := rfl
    rw [hzero]
    exact ⟨zero_isFinite sign, by simp [signed]⟩
  · have hlog : n.log2 ≤ 64 := log2_le_of_lt hn (by omega)
    have hspec := ofExact_spec sign 0 hn hbits (by omega) (by omega)
    rwa [zpow_zero, mul_one] at hspec

/-! ## Rounding to integers -/

/-- The part of a magnitude that is kept without the bits below the point, and whether it differs
from the whole. -/
theorem dropBits_spec (mode : Rounding) (hscale : x.scale < 0) :
    signed x.sign ((dropBits mode x.sign x.significand.toNat (-x.scale).toNat).1 : ℚ) =
        mode.toInteger x.toRat ∧
      ((dropBits mode x.sign x.significand.toNat (-x.scale).toNat).2 = true ↔
        signed x.sign ((dropBits mode x.sign x.significand.toNat (-x.scale).toNat).1 : ℚ) ≠
          x.toRat) := by
  obtain ⟨count, hcount⟩ := Int.eq_ofNat_of_zero_le (show 0 ≤ -x.scale by omega)
  have hne : count ≠ 0 := by omega
  have hlies := liesAt_shiftRight (K := ℚ) x.significand.toNat hne x.scale
  rw [show x.scale + count = 0 by omega] at hlies
  have hchosen := hlies.chosen_ne_iff (mode.onMagnitude x.sign)
  rw [zpow_zero, mul_one] at hchosen
  rw [toRat, hcount, Int.toNat_natCast, dropBits_eq mode x.sign x.significand.toNat hne, Ne,
    signed_inj, ← Ne, hchosen, Rounding.toInteger_signed,
    (mode.onMagnitude x.sign).toInteger_of_liesAt hlies, Int.cast_natCast]
  exact ⟨rfl, Iff.rfl⟩

/-- A number with bits below its point keeps the others. -/
theorem roundToIntegral_eq (mode : Rounding) (hx : x.isFiniteNonzero = true)
    (hscale : x.scale < 0) :
    x.roundToIntegral mode =
      (ofExact x.sign (dropBits mode x.sign x.significand.toNat (-x.scale).toNat).1 0,
        (dropBits mode x.sign x.significand.toNat (-x.scale).toNat).2) := by
  rw [roundToIntegral, hx, decide_eq_true hscale, Bool.and_self, if_pos rfl]

/-- A number that is an integer stays as it is. -/
theorem roundToIntegral_of_eq_int (mode : Rounding) {n : ℤ} (h : x.toRat = n) :
    x.roundToIntegral mode = (x, false) := by
  by_cases hdrop : x.isFiniteNonzero = true ∧ x.scale < 0
  · obtain ⟨hx, hscale⟩ := hdrop
    obtain ⟨hkept, hflag⟩ := dropBits_spec mode hscale
    rw [h, Rounding.toInteger_intCast, ← h] at hkept
    rw [hkept, ne_self_iff_false, iff_false, Bool.not_eq_true] at hflag
    have hvalue :
        ((dropBits mode x.sign x.significand.toNat (-x.scale).toNat).1 : ℚ) * 2 ^ (0 : ℤ) =
          x.significand.toNat * 2 ^ x.scale := by
      rw [zpow_zero, mul_one]
      exact signed_inj.1 hkept
    rw [roundToIntegral_eq mode hx hscale, hflag,
      ofExact_of_normal hx (exponent_ne_zero_of_eq_int hx h) hvalue]
  · rw [roundToIntegral, if_neg]
    simpa using hdrop

/-- A finite number is rounded to the integer that its value is rounded to. -/
theorem roundToIntegral_spec (mode : Rounding) (hx : x.IsFinite) :
    (x.roundToIntegral mode).1.IsFinite ∧
      (x.roundToIntegral mode).1.toRat = mode.toInteger x.toRat ∧
      (x.roundToIntegral mode).1.sign = x.sign ∧
      ((x.roundToIntegral mode).2 = true ↔ ¬∃ n : ℤ, x.toRat = n) := by
  by_cases hint : ∃ n : ℤ, x.toRat = n
  · obtain ⟨n, h⟩ := hint
    rw [roundToIntegral_of_eq_int mode h]
    refine ⟨hx, ?_, rfl, iff_of_false Bool.false_ne_true (not_not.2 ⟨n, h⟩)⟩
    rw [h, Rounding.toInteger_intCast]
  · have hnonzero : x.isFiniteNonzero = true :=
      hx.resolve_left fun hzero => hint ⟨0, by rw [toRat_of_isZero hzero, Int.cast_zero]⟩
    have hscale : x.scale < 0 := not_le.1 fun h => hint (exists_int_of_scale_nonneg h)
    obtain ⟨hkept, hflag⟩ := dropBits_spec mode hscale
    have hbits := dropBits_le mode x.sign x.significand.toNat (-x.scale).toNat
    have hlt := x.significand.isLt
    rw [hkept, Ne, Rounding.toInteger_eq_self_iff] at hflag
    obtain ⟨hfinite, hvalue⟩ := ofExact_zero_spec x.sign (hbits.trans (by omega))
    rw [roundToIntegral_eq mode hnonzero hscale]
    exact ⟨hfinite, hvalue.trans hkept, sign_ofExact _ _ _, hflag⟩

/-- The integer that a finite number is rounded to, when it is below `2 ^ 64` in magnitude. -/
theorem toInt?_eq (mode : Rounding) (hx : x.IsFinite) :
    x.toInt? mode =
      (if |mode.toInteger x.toRat| < 2 ^ 64 then some (mode.toInteger x.toRat) else none,
        (x.roundToIntegral mode).2) := by
  obtain ⟨hfinite, hvalue, -⟩ := roundToIntegral_spec mode hx
  rcases hx with hzero | hnonzero
  · have hint : x.toRat = (0 : ℤ) := by rw [toRat_of_isZero hzero, Int.cast_zero]
    rw [roundToIntegral_of_eq_int mode hint, hint, Rounding.toInteger_intCast, toInt?, if_pos hzero]
    rfl
  obtain ⟨-, -, hxz⟩ := isFiniteNonzero_iff.1 hnonzero
  unfold toInt?
  rw [hxz, hnonzero, if_neg Bool.false_ne_true, if_pos rfl]
  generalize x.roundToIntegral mode = result at hfinite hvalue ⊢
  generalize mode.toInteger x.toRat = n at hvalue ⊢
  obtain ⟨r, inexact⟩ := result
  dsimp only at hfinite hvalue ⊢
  rcases hfinite with hrz | hr
  · rw [toRat_of_isZero hrz] at hvalue
    obtain rfl : n = 0 := by exact_mod_cast hvalue.symm
    rw [if_pos hrz]
    rfl
  · obtain ⟨-, -, hrz⟩ := isFiniteNonzero_iff.1 hr
    have hreach := two_zpow_le_abs_iff hr (k := 64)
    have hinteger := multipleOf_zero_of_eq_int hvalue
    rw [leadingExponent_eq_topExponent hr (exponent_ne_zero_of_eq_int hr hvalue), hvalue] at hreach
    rw [multipleOf, sub_zero] at hinteger
    have hlarge : 63 < r.topExponent ↔ ¬|n| < 2 ^ 64 := by
      rw [not_lt, show (2 : ℤ) ^ 64 ≤ |n| ↔ _ by exact_mod_cast hreach]
      omega
    rw [hrz, if_neg Bool.false_ne_true, hinteger]
    simp only [hlarge, ite_not]
    split <;> rfl

/-- A finite number is rounded to an integer: it becomes the integer that its value is rounded to,
with the sign that it had, and the flag tells whether it was one before.  As an integer it is
known when it is below `2 ^ 64` in magnitude. -/
theorem roundToIntegral_exact (mode : Rounding) (hx : x.IsFinite) :
    (x.roundToIntegral mode).1.IsFinite ∧
      (x.roundToIntegral mode).1.toRat = mode.toInteger x.toRat ∧
      (x.roundToIntegral mode).1.sign = x.sign ∧
      ((x.roundToIntegral mode).2 = true ↔ ¬∃ n : ℤ, x.toRat = n) ∧
      (x.roundToIntegral mode).1.roundToIntegral mode = ((x.roundToIntegral mode).1, false) ∧
      (x.toInt? mode).1 =
        if |mode.toInteger x.toRat| < 2 ^ 64 then some (mode.toInteger x.toRat) else none := by
  obtain ⟨hfinite, hvalue, hsign, hflag⟩ := roundToIntegral_spec mode hx
  exact ⟨hfinite, hvalue, hsign, hflag, roundToIntegral_of_eq_int mode hvalue,
    congrArg Prod.fst (toInt?_eq mode hx)⟩

/-- A number that is one half above an integer with 63 bits, whose magnitude gets one more bit. -/
theorem roundToIntegral_exact_halfway :
    IsFinite ⟨true, 0x403D, 0xFFFFFFFFFFFFFFFF⟩ ∧
      toRat ⟨true, 0x403E, integerBit⟩ =
        Rounding.toInteger .nearest (toRat ⟨true, 0x403D, 0xFFFFFFFFFFFFFFFF⟩) ∧
      |Rounding.toInteger .nearest (toRat ⟨true, 0x403D, 0xFFFFFFFFFFFFFFFF⟩)| < 2 ^ 64 :=
  have hfinite : IsFinite ⟨true, 0x403D, 0xFFFFFFFFFFFFFFFF⟩ := by decide
  have hround : (roundToIntegral .nearest ⟨true, 0x403D, 0xFFFFFFFFFFFFFFFF⟩).1 =
      ⟨true, 0x403E, integerBit⟩ := by decide
  have hint : (toInt? .nearest ⟨true, 0x403D, 0xFFFFFFFFFFFFFFFF⟩).1 = some (-2 ^ 63) := by decide
  have hexact := roundToIntegral_exact .nearest hfinite
  ⟨hfinite, hround ▸ hexact.2.1, by
    by_contra hnot
    have hnone := hexact.2.2.2.2.2
    rw [if_neg hnot, hint] at hnone
    cases hnone⟩

end Extended

end Ia32
