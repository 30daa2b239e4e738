import Mathlib.Analysis.Real.Sqrt
import Ia32.Proofs.RoundedArithmetic

/-!
# Square roots

The root of a number is found bit by bit.  Each digit of the radicand, to base
four, gives one bit of the root, and what is left says how much the digits taken
so far exceed the square of the root (`RootSearch.Finds`).  So the loop ends with
the integral square root of the radicand and what its square leaves
(`squareRoot_finds`).

Of the root that is found only the last bit is not exact.  It is set when
anything is left, and it lies below the last place that is kept, so that the root
is rounded like the real one (`agreeAt_root`, `sqrt_roundsTo`).
-/

namespace Ia32

namespace Extended

/-! ## The digits of the radicand -/

namespace RootSearch

/-- A search has found the integral square root of a number. -/
structure Finds (n : Nat) (s : RootSearch) : Prop where
  square_add_rest : s.root * s.root + s.rest = n
  rest_le : s.rest ≤ 2 * s.root

variable {n : Nat} {s : RootSearch}

theorem start_finds : start.Finds 0 := ⟨rfl, le_rfl⟩

/-- One more digit gives the root of the number with that digit at its end. -/
theorem Finds.next (h : s.Finds n) {digit : Nat} (hd : digit < 4) :
    (s.next digit).Finds (4 * n + digit) := by
  obtain ⟨hsquare, hrest⟩ := h
  unfold RootSearch.next
  dsimp only
  split
  next hle =>
    constructor
    · calc (2 * s.root + 1) * (2 * s.root + 1) + (4 * s.rest + digit - (4 * s.root + 1))
          = 4 * (s.root * s.root) + (4 * s.root + 1 + (4 * s.rest + digit - (4 * s.root + 1))) := by
            ring
        _ = 4 * n + digit := by omega
    · dsimp only
      omega
  next hlt =>
    constructor
    · calc 2 * s.root * (2 * s.root) + (4 * s.rest + digit)
          = 4 * (s.root * s.root + s.rest) + digit := by ring
        _ = 4 * n + digit := by rw [hsquare]
    · dsimp only
      omega

theorem Finds.root_eq (h : s.Finds n) : s.root = n.sqrt := by
  obtain ⟨hsquare, hrest⟩ := h
  refine Nat.eq_sqrt.2 ⟨by omega, ?_⟩
  calc n = s.root * s.root + s.rest := hsquare.symm
    _ < s.root * s.root + (2 * s.root + 1) := by omega
    _ = (s.root + 1) * (s.root + 1) := by ring

theorem Finds.rest_eq (h : s.Finds n) : s.rest = n - n.sqrt * n.sqrt := by
  have hsquare := h.square_add_rest
  rw [h.root_eq] at hsquare
  omega

end RootSearch

theorem radicandDigit_eq (radicand place : Nat) :
    radicandDigit radicand place = radicand * 4 ^ fractionDigits / 4 ^ place % 4 := by
  unfold radicandDigit
  split
  next hle =>
    obtain ⟨k, rfl⟩ := Nat.exists_eq_add_of_le hle
    rw [Nat.add_sub_cancel_left, Nat.shiftRight_eq_div_pow, Nat.pow_mul, Nat.pow_add,
      Nat.mul_comm radicand, Nat.mul_div_mul_left _ _ (Nat.pow_pos (by decide))]
  next hlt =>
    obtain ⟨k, hk⟩ := Nat.exists_eq_add_of_lt (not_le.1 hlt)
    have hsplit : radicand * 4 ^ fractionDigits = 4 ^ place * (4 * (radicand * 4 ^ k)) := by
      rw [hk, Nat.pow_succ, Nat.pow_add]
      ring
    rw [hsplit, Nat.mul_div_cancel_left _ (Nat.pow_pos (by decide)), Nat.mul_mod_right]

/-- The digits that are left extend what was found to the root of the whole radicand. -/
theorem findRoot_finds {radicand places : Nat} {s : RootSearch}
    (h : s.Finds (radicand * 4 ^ fractionDigits / 4 ^ places)) :
    (findRoot radicand places s).Finds (radicand * 4 ^ fractionDigits) := by
  induction places generalizing s with
  | zero => rwa [Nat.pow_zero, Nat.div_one] at h
  | succ place ih =>
    refine ih ?_
    rw [radicandDigit_eq]
    have hdigit : radicand * 4 ^ fractionDigits / 4 ^ place % 4 < 4 := Nat.mod_lt _ (by decide)
    have hnext := h.next hdigit
    rwa [Nat.pow_succ, ← Nat.div_div_eq_div_mul, Nat.div_add_mod] at hnext

/-- The loop finds the root of a radicand that has no more digits than it takes. -/
theorem squareRoot_finds {radicand : Nat} (h : radicand < 4 ^ radicandDigits) :
    (squareRoot radicand).Finds (radicand * 4 ^ fractionDigits) := by
  refine findRoot_finds ?_
  have hlt : radicand * 4 ^ fractionDigits < 4 ^ (radicandDigits + fractionDigits) := by
    rw [Nat.pow_add]
    exact Nat.mul_lt_mul_of_pos_right h (Nat.pow_pos (by decide))
  rw [Nat.div_eq_of_lt hlt]
  exact RootSearch.start_finds

/-! ## The radicand of a number -/

section Radicand

variable {x : Extended}

theorem radicand_lt (x : Extended) : x.radicand < 4 ^ radicandDigits := by
  have hlt := normalizedSignificand_lt x
  have hodd : (x.normalizedScale % 2).toNat ≤ 1 := by omega
  rw [radicand, Nat.shiftLeft_eq]
  calc x.normalizedSignificand * 2 ^ (x.normalizedScale % 2).toNat
      ≤ x.normalizedSignificand * 2 ^ 1 :=
        Nat.mul_le_mul_left _ (Nat.pow_le_pow_right Nat.two_pos hodd)
    _ < 2 ^ 64 * 2 ^ 1 := Nat.mul_lt_mul_of_pos_right hlt (Nat.two_pow_pos 1)
    _ ≤ 4 ^ radicandDigits := by decide

theorem le_radicand (h : x.isFiniteNonzero = true) : 2 ^ 63 ≤ x.radicand := by
  rw [radicand, Nat.shiftLeft_eq]
  exact (le_normalizedSignificand h).trans (Nat.le_mul_of_pos_right _ (Nat.two_pow_pos _))

/-- The radicand stands at an even exponent. -/
theorem radicand_mul (x : Extended) :
    (x.radicand : ℚ) * 2 ^ (2 * (x.normalizedScale / 2)) = x.significand.toNat * 2 ^ x.scale := by
  have hdiv := Int.mul_ediv_add_emod x.normalizedScale 2
  have heven : x.normalizedScale - 2 * (x.normalizedScale / 2) = x.normalizedScale % 2 := by omega
  have h := shiftLeft_normalizedSignificand_mul x
    (show 2 * (x.normalizedScale / 2) ≤ x.normalizedScale by omega)
  rwa [heven] at h

/-- The square of the root at the scale of the result. -/
theorem radicand_digits_mul (x : Extended) :
    ((x.radicand * 4 ^ fractionDigits : Nat) : ℚ) *
        (2 ^ (x.normalizedScale / 2 - fractionDigits)) ^ 2 =
      x.significand.toNat * 2 ^ x.scale := by
  have hpow : (4 : ℚ) ^ fractionDigits = 2 ^ (2 * (fractionDigits : Int)) := by
    rw [zpow_mul, zpow_natCast]
    norm_num
  have hsplit : 2 * (x.normalizedScale / 2) =
      2 * fractionDigits + (x.normalizedScale / 2 - fractionDigits) * (2 : Nat) := by
    push_cast
    ring
  rw [← radicand_mul, hsplit, zpow_add₀ two_ne_zero, zpow_mul _ _ ((2 : Nat) : Int), zpow_natCast]
  push_cast
  rw [hpow]
  ring

end Radicand

/-! ## Rounding the root -/

section Rounding

variable {K : Type*} [Field K] [LinearOrder K] [IsStrictOrderedRing K]

/-- A real root lies like the integral one whose last bit is set when anything is left. -/
theorem agreeAt_root {n : Nat} {s : RootSearch} (h : s.Finds n) {y : K} (hy : 0 ≤ y)
    (hsquare : y * y = n) (place : Int) :
    AgreeAt (place + 1) (y * 2 ^ place) (orSticky s.root (s.rest != 0) * 2 ^ place) := by
  obtain ⟨hsum, hrest⟩ := h
  have hroot : (0 : K) ≤ s.root := Nat.cast_nonneg _
  refine agreeAt_orSticky place ?_ ?_ ?_
  · rw [mul_self_le_mul_self_iff hroot hy, hsquare]
    exact_mod_cast (by omega : s.root * s.root ≤ n)
  · rw [mul_self_lt_mul_self_iff hy (by positivity), hsquare]
    have hlt : n < (s.root + 1) * (s.root + 1) := by
      rw [← hsum, Nat.mul_add, Nat.add_mul]
      omega
    exact_mod_cast hlt
  · rw [bne_iff_ne, mul_self_lt_mul_self_iff hroot hy, hsquare]
    norm_cast
    omega

end Rounding

end Extended

/-! ## Rounding within the range of a format -/

section Range

variable {K : Type*} [Field K] [LinearOrder K] [IsStrictOrderedRing K] {f : Format}
  {mode : Rounding} {x r b : K}

/-- What is neither below the normal numbers nor beyond a held one stays in the range, and raises
an exception only when it is not held itself. -/
theorem RoundsTo.of_normal {result : Rounded} (h : RoundsTo f mode x result)
    (hlow : 2 ^ f.minExponent ≤ x) (hb : f.Holds b) (hx : x ≤ b) (hbound : b < f.bound) :
    f.Rounds mode x result.value.toRat ∧ result.value.IsFinite ∧
      result.exceptions = if (result.value.toRat : K) = x then 0 else Exception.precision := by
  have hpos : 0 < x := (Format.two_zpow_pos _).trans_le hlow
  have hinside {r : K} (hr : f.Rounds mode x r) : |r| < f.bound := by
    rw [abs_of_nonneg (hr.ge_of_holds f.holds_zero hpos.le)]
    exact (hr.le_of_holds hb hx).trans_lt hbound
  cases h with
  | inRange rounds bounded finite toRat_eq =>
    subst toRat_eq
    refine ⟨rounds, finite, ?_⟩
    simp only [roundingExceptions, abs_of_pos hpos, hlow.not_gt, if_false]
  | infinite rounds unbounded => exact absurd (hinside rounds) unbounded.not_gt
  | largest rounds unbounded => exact absurd (hinside rounds) unbounded.not_gt

end Range

/-! ## Square roots of numbers -/

namespace Extended

variable {mode : Rounding} {x : Extended}

/-- A number is the square of one that ten bytes can hold. -/
def IsSquareOfNumber (x : Extended) : Prop :=
  ∃ r : Extended, r.IsFinite ∧ r.HasEncoding ∧ r.toRat ^ 2 = x.toRat

theorem sqrt_eq_roundTo (hx : x.isFiniteNonzero = true) (hsign : x.sign = false) :
    sqrt mode x = roundTo .extended mode false
      (orSticky (squareRoot x.radicand).root ((squareRoot x.radicand).rest != 0))
      (x.normalizedScale / 2 - fractionDigits) := by
  obtain ⟨hnan, hinf, hzero⟩ := isFiniteNonzero_iff.1 hx
  simp [sqrt, hnan, hinf, hzero, hsign]

theorem toRat_of_sign (hsign : x.sign = false) :
    x.toRat = x.significand.toNat * 2 ^ x.scale := by
  rw [toRat, hsign]
  rfl

/-- The root of a number is that of its radicand, with all the digits that are taken. -/
theorem sqrt_toRat (hsign : x.sign = false) :
    √(x.toRat : ℝ) = √((x.radicand * 4 ^ fractionDigits : Nat) : ℝ) *
      2 ^ (x.normalizedScale / 2 - fractionDigits) := by
  rw [toRat_of_sign hsign, ← radicand_digits_mul]
  push_cast
  rw [Real.sqrt_mul' _ (by positivity), Real.sqrt_sq (by positivity)]

/-- A root is computed to more bits than are kept. -/
theorem root_bounds (hx : x.isFiniteNonzero = true) :
    2 ^ 65 ≤ (squareRoot x.radicand).root ∧ (squareRoot x.radicand).root < 2 ^ 67 := by
  rw [(squareRoot_finds (radicand_lt x)).root_eq, Nat.le_sqrt, Nat.sqrt_lt]
  constructor
  · calc 2 ^ 65 * 2 ^ 65 ≤ 2 ^ 63 * 4 ^ fractionDigits := by decide
      _ ≤ x.radicand * 4 ^ fractionDigits := Nat.mul_le_mul_right _ (le_radicand hx)
  · calc x.radicand * 4 ^ fractionDigits < 4 ^ radicandDigits * 4 ^ fractionDigits :=
          Nat.mul_lt_mul_of_pos_right (radicand_lt x) (Nat.pow_pos (by decide))
      _ = 2 ^ 67 * 2 ^ 67 := by decide

theorem sqrt_roundsTo_real (mode : Rounding) (hx : x.isFiniteNonzero = true)
    (hsign : x.sign = false) :
    RoundsTo .extended mode (√(x.toRat : ℝ)) (sqrt mode x) := by
  obtain ⟨hlow, hhigh⟩ := root_bounds hx
  have hagree := agreeAt_root (squareRoot_finds (radicand_lt x)) (Real.sqrt_nonneg _)
    (Real.mul_self_sqrt (Nat.cast_nonneg _)) (x.normalizedScale / 2 - fractionDigits)
  rw [← sqrt_toRat hsign] at hagree
  rw [sqrt_eq_roundTo hx hsign]
  have hle := le_orSticky (squareRoot x.radicand).root ((squareRoot x.radicand).rest != 0)
  have hlt := orSticky_le (squareRoot x.radicand).root ((squareRoot x.radicand).rest != 0)
  generalize orSticky (squareRoot x.radicand).root ((squareRoot x.radicand).rest != 0) = bits at *
  have hne : bits ≠ 0 := by omega
  have hlog : 65 ≤ bits.log2 := (Nat.le_log2 hne).2 (hlow.trans hle)
  have hscale := leastPlace_le_scale x
  simp only [Format.leastPlace, Format.extended] at hscale
  change RoundsTo .extended mode (signed false √(x.toRat : ℝ)) _
  refine roundTo_roundsTo Format.extended_fitsRegisters hne (by omega) hagree ?_ (by omega)
    fun _ => ?_
  · simp only [lastPlace, Format.extended]
    omega
  · simp only [depthLimit, Format.extended, normalizedScale, leadingExponent, fractionDigits]
    omega

/-- A root is as far above the least normal number as it is below the greatest one. -/
theorem sqrt_bounds (hx : x.isFiniteNonzero = true) (hsign : x.sign = false)
    (henc : x.HasEncoding) :
    (2 : ℝ) ^ Format.extended.minExponent ≤ √(x.toRat : ℝ) ∧ √(x.toRat : ℝ) ≤ 2 ^ (8192 : Int) := by
  have hvalue := toRat_of_sign hsign
  constructor
  · have hle : (2 : ℚ) ^ (Format.extended.minExponent * (2 : Nat)) ≤ x.toRat := by
      have hscale := leastPlace_le_scale x
      rw [hvalue, two_zpow_le_iff (significand_pos hx).ne']
      simp only [Format.leastPlace, Format.extended] at hscale ⊢
      omega
    have hcast := (Rat.cast_le (K := ℝ)).2 hle
    rw [Rat.cast_zpow, Rat.cast_ofNat, zpow_mul, zpow_natCast] at hcast
    exact (Real.le_sqrt' (Format.two_zpow_pos _)).2 hcast
  · have hlt : x.toRat < 2 ^ ((8192 : Int) * (2 : Nat)) := by
      have habs := abs_toRat_lt_bound (.inr hx) henc
      rw [abs_of_pos (hvalue ▸ magnitude_pos hx)] at habs
      exact habs
    have hcast := (Rat.cast_lt (K := ℝ)).2 hlt
    rw [Rat.cast_zpow, Rat.cast_ofNat, zpow_mul, zpow_natCast] at hcast
    exact (Real.sqrt_le_left (Format.two_zpow_pos _).le).2 hcast.le

/-- Only the root of a number that is not the square of another one raises an exception. -/
theorem sqrt_exceptions (mode : Rounding) (hx : x.isFiniteNonzero = true)
    (hsign : x.sign = false) (henc : x.HasEncoding) :
    (x.IsSquareOfNumber → (sqrt mode x).exceptions = 0) ∧
      (¬x.IsSquareOfNumber → (sqrt mode x).exceptions = Exception.precision) := by
  have hpos : (0 : ℝ) ≤ x.toRat := by
    have hnonneg : 0 ≤ x.toRat := toRat_of_sign hsign ▸ (magnitude_pos hx).le
    exact_mod_cast hnonneg
  obtain ⟨hlow, hhigh⟩ := sqrt_bounds hx hsign henc
  have hheld : Format.extended.Holds ((2 : ℝ) ^ (8192 : Int)) :=
    ⟨1, 8192, by decide, by decide, by simp⟩
  obtain ⟨hrounds, hfinite, hexceptions⟩ := (sqrt_roundsTo_real mode hx hsign).of_normal
    hlow hheld hhigh (zpow_lt_zpow_right₀ one_lt_two (by decide))
  have hsquare : x.IsSquareOfNumber ↔ ((sqrt mode x).value.toRat : ℝ) = √(x.toRat : ℝ) := by
    constructor
    · rintro ⟨r, -, -, hr⟩
      -- The root is then a number itself, and rounds to nothing else.
      have hroot : √(x.toRat : ℝ) = |(r.toRat : ℝ)| := by
        rw [← hr, Rat.cast_pow, Real.sqrt_sq_eq_abs]
      refine hrounds.eq_of_holds ?_
      rw [hroot]
      exact (holds_toRat r).ratCast.abs
    · intro heq
      refine ⟨_, hfinite, sqrt_hasEncoding mode henc, ?_⟩
      have hsq : ((sqrt mode x).value.toRat : ℝ) ^ 2 = x.toRat := by rw [heq, Real.sq_sqrt hpos]
      exact_mod_cast hsq
  rw [hexceptions, hsquare]
  exact ⟨fun heq => if_pos heq, fun hne => if_neg hne⟩

/-- The root of a positive number is the real one, rounded once.  It raises no exception but that
it is not exact.  The loop ends with the integral root of the digits, and what its square leaves. -/
theorem sqrt_roundsTo (mode : Rounding) (hx : x.isFiniteNonzero = true) (hsign : x.sign = false) :
    RoundsTo .extended mode (√(x.toRat : ℝ)) (sqrt mode x) ∧
      (x.HasEncoding →
        (x.IsSquareOfNumber → (sqrt mode x).exceptions = 0) ∧
          (¬x.IsSquareOfNumber → (sqrt mode x).exceptions = Exception.precision)) ∧
      (squareRoot x.radicand).root = (x.radicand * 4 ^ fractionDigits).sqrt ∧
      (squareRoot x.radicand).rest = x.radicand * 4 ^ fractionDigits -
        (x.radicand * 4 ^ fractionDigits).sqrt * (x.radicand * 4 ^ fractionDigits).sqrt :=
  have hfinds := squareRoot_finds (radicand_lt x)
  ⟨sqrt_roundsTo_real mode hx hsign, sqrt_exceptions mode hx hsign, hfinds.root_eq, hfinds.rest_eq⟩

/-- The root of two, rounded up. -/
theorem sqrt_roundsTo_two :
    let two : Extended := ⟨false, 0x4000, integerBit⟩
    two.isFiniteNonzero = true ∧ two.sign = false ∧
      RoundsTo .extended .up (√(two.toRat : ℝ)) (sqrt .up two) ∧
      (two.HasEncoding →
        (two.IsSquareOfNumber → (sqrt .up two).exceptions = 0) ∧
          (¬two.IsSquareOfNumber → (sqrt .up two).exceptions = Exception.precision)) ∧
      (squareRoot two.radicand).root = (two.radicand * 4 ^ fractionDigits).sqrt ∧
      (squareRoot two.radicand).rest = two.radicand * 4 ^ fractionDigits -
        (two.radicand * 4 ^ fractionDigits).sqrt * (two.radicand * 4 ^ fractionDigits).sqrt :=
  have hfinite : isFiniteNonzero ⟨false, 0x4000, integerBit⟩ = true := by decide
  ⟨hfinite, rfl, sqrt_roundsTo .up hfinite rfl⟩

end Extended

end Ia32
