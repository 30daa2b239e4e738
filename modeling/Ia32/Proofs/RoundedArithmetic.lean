import Mathlib.Tactic.FieldSimp
import Ia32.Float.Operation
import Ia32.Proofs.RoundedValues

/-!
# Rounded arithmetic

Sums, differences, products, scaled numbers and quotients of finite numbers are
their exact values, rounded once.

The smaller operand of a sum is moved to the exponent of the larger one, and what
is cut off there leaves a sticky bit (`aligned_eq`).  The sum and the difference
have a sticky bit too then, below the last place that is kept (`sum_agreeAt`,
`difference_agreeAt`), for the larger operand has its top bit when the exponents
are far apart.  A sum that is below the normal numbers is exact, so that it never
underflows (`add_sub_sumsTo`).

A quotient is found in two divisions, which is one division of a longer dividend
(`quotient_eq`), and cut off below the last place as well (`div_roundsTo`).

Products and scaled numbers have one flaw: what lies too far below the normal
numbers becomes zero, even in a direction of rounding that leads away from zero
(`Vanishes`, `mul_scaleBy_roundsUnlessVanishing`).  The unit that is kept then is
moved by more places than there are bits, and still farther down the number of
places is more than the machine counts (`Kept.Overshifts`).
-/

namespace Ia32

/-! ## Operands -/

namespace Extended

variable {x : Extended}

theorem isFiniteNonzero_iff :
    x.isFiniteNonzero = true ↔ x.isNan = false ∧ x.isInfinite = false ∧ x.isZero = false := by
  unfold isFiniteNonzero isNan isInfinite isZero classify
  dsimp only
  split_ifs <;> simp_all

theorem isFinite_iff : x.IsFinite ↔ x.isNan = false ∧ x.isInfinite = false := by
  unfold IsFinite isFiniteNonzero isNan isInfinite isZero classify
  dsimp only
  split_ifs <;> simp_all [show specialExponent ≠ 0#16 by decide]

@[simp] theorem isFinite_neg : x.neg.IsFinite ↔ x.IsFinite := Iff.rfl

theorem toRat_neg (x : Extended) : x.neg.toRat = -x.toRat := by
  unfold toRat
  cases hs : x.sign <;> simp [neg, hs, signed, scale, topExponent]

theorem toRat_of_isZero (h : x.isZero = true) : x.toRat = 0 := by
  have hsig : x.significand = 0 := by
    unfold isZero at h
    exact eq_of_beq (Bool.and_eq_true_iff.1 h).2
  unfold toRat
  rw [hsig]
  cases x.sign <;> simp [signed]

theorem significand_pos (h : x.isFiniteNonzero = true) : 0 < x.significand.toNat := by
  obtain ⟨hnan, -, hzero⟩ := isFiniteNonzero_iff.1 h
  exact Nat.pos_of_ne_zero (significand_ne_zero hnan hzero)

theorem magnitude_pos (h : x.isFiniteNonzero = true) :
    (0 : ℚ) < x.significand.toNat * 2 ^ x.scale :=
  mul_pos (by exact_mod_cast significand_pos h) (Format.two_zpow_pos _)

theorem toRat_ne_zero (h : x.isFiniteNonzero = true) : x.toRat ≠ 0 :=
  signed_ne_zero (magnitude_pos h).ne'

/-- The bottom bit of a number is not below that of the least numbers. -/
theorem leastPlace_le_scale (x : Extended) : Format.extended.leastPlace ≤ x.scale := by
  unfold scale topExponent
  simp only [Format.leastPlace, Format.extended, minExponent, bias]
  split
  · decide
  next h =>
    have hpos : x.exponent.toNat ≠ 0 := fun hz => h (BitVec.eq_of_toNat_eq hz)
    omega

theorem scale_le (x : Extended) : x.scale ≤ 65535 - (bias + 63) := by
  have hexponent := x.exponent.isLt
  unfold scale topExponent
  simp only [minExponent, bias]
  split <;> omega

/-- A number that is no NaN has its top bit, unless it has the least exponent. -/
theorem le_significand_of_not_isNan (h : x.isNan = false) (hne : x.exponent ≠ 0) :
    2 ^ 63 ≤ x.significand.toNat := by
  rw [← and_integerBit_ne_zero_iff]
  intro hbit
  have hclass : x.classify = .unsupported := by
    have hne' : ¬x.exponent = 0#16 := hne
    unfold classify
    simp [hbit, hne']
  rw [isNan, hclass] at h
  cases h

theorem scale_of_exponent_eq_zero (h : x.exponent = 0) : x.scale = -16445 := by
  rw [scale, topExponent, if_pos h]
  rfl

theorem scale_of_exponent_ne_zero (h : x.exponent ≠ 0) : x.scale = x.exponent.toNat - 16446 := by
  rw [scale, topExponent, if_neg h, bias]
  omega

/-- The normalized significand at a smaller scale is the significand at that scale. -/
theorem shiftLeft_normalizedSignificand (x : Extended) {place : Int}
    (h : place ≤ x.normalizedScale) :
    x.normalizedSignificand <<< (x.normalizedScale - place).toNat =
      shift x.significand.toNat (x.scale - place) := by
  have hlog := log2_significand_le x
  unfold normalizedSignificand normalizedScale leadingExponent at *
  rw [← Nat.shiftLeft_add, shift, if_pos (by omega)]
  congr 1
  omega

theorem normalizedScale_le_scale (x : Extended) : x.normalizedScale ≤ x.scale := by
  have hlog := log2_significand_le x
  unfold normalizedScale leadingExponent
  omega

/-- The magnitude of a number, in terms of its normalized significand. -/
theorem shiftLeft_normalizedSignificand_mul (x : Extended) {place : Int}
    (h : place ≤ x.normalizedScale) :
    ((x.normalizedSignificand <<< (x.normalizedScale - place).toNat : Nat) : ℚ) * 2 ^ place =
      x.significand.toNat * 2 ^ x.scale := by
  rw [shiftLeft_normalizedSignificand x h]
  exact shift_mul (h.trans (normalizedScale_le_scale x))

theorem le_normalizedSignificand (h : x.isFiniteNonzero = true) :
    2 ^ 63 ≤ x.normalizedSignificand := by
  have hs := (significand_pos h).ne'
  have hlog := log2_significand_le x
  rw [normalizedSignificand, Nat.shiftLeft_eq]
  calc 2 ^ 63 = 2 ^ x.significand.toNat.log2 * 2 ^ (63 - x.significand.toNat.log2) := by
        rw [← Nat.pow_add]
        congr 1
        omega
    _ ≤ x.significand.toNat * 2 ^ (63 - x.significand.toNat.log2) :=
        Nat.mul_le_mul_right _ (Nat.log2_self_le hs)

/-- A finite number as a multiple of `2 ^ scale`, for a scale not above its own. -/
def multipleOf (x : Extended) (scale : Int) : Int :=
  let magnitude : Int := shift x.significand.toNat (x.scale - scale)
  if x.sign then -magnitude else magnitude

/-- A number at a smaller scale is the same number. -/
theorem multipleOf_mul {place : Int} (h : place ≤ x.scale) :
    (x.multipleOf place : ℚ) * 2 ^ place = x.toRat := by
  have hshift := shift_mul (K := ℚ) (n := x.significand.toNat) h
  unfold multipleOf toRat
  rw [← hshift]
  cases x.sign <;> simp [signed]

/-- A finite number that ten bytes can hold is one of the registers' format. -/
theorem holds_toRat (x : Extended) : Format.extended.Holds x.toRat := by
  have hheld := Format.holds_natCast_mul (K := ℚ) (f := .extended) x.significand.isLt
    (leastPlace_le_scale x)
  unfold toRat
  cases x.sign
  · exact hheld
  · exact hheld.neg

theorem abs_toRat_lt_bound (hx : x.IsFinite) (henc : x.HasEncoding) :
    |x.toRat| < Format.extended.bound := by
  rcases hx with hzero | hfinite
  · rw [toRat_of_isZero hzero, abs_zero]
    exact Format.two_zpow_pos _
  · have hlog := log2_significand_le x
    have hscale : x.scale ≤ 16320 := by
      have hne : x.exponent ≠ specialExponent := by
        intro heq
        unfold isFiniteNonzero classify at hfinite
        dsimp only at hfinite
        rw [if_pos heq] at hfinite
        split_ifs at hfinite
      have hle : x.exponent.toNat ≤ 32767 := henc
      have hne' : x.exponent.toNat ≠ 32767 := fun h => hne (BitVec.eq_of_toNat_eq h)
      unfold scale topExponent
      simp only [minExponent, bias]
      split <;> omega
    rw [toRat, abs_signed (magnitude_pos hfinite).le]
    refine lt_two_zpow_log2.trans_le (zpow_le_zpow_right₀ one_le_two ?_)
    simp only [Format.extended]
    omega

/-- A finite number that ten bytes can hold is rounded to itself. -/
theorem exact_roundsTo (mode : Rounding) (hx : x.IsFinite) (henc : x.HasEncoding) :
    RoundsTo .extended mode x.toRat (.exact x) := by
  have hrounds := Format.rounds_self mode (holds_toRat x)
  have hexceptions : roundingExceptions .extended x.toRat x.toRat = 0 := if_pos rfl
  rw [Rounded.exact, ← hexceptions]
  refine .inRange hrounds (abs_toRat_lt_bound hx henc) hx (Rat.cast_id _) fun hne => ?_
  rcases hx with hzero | hfinite
  · exact absurd (toRat_of_isZero hzero) hne
  · exact eq_decide_signed_neg _ (magnitude_pos hfinite)

end Extended

/-! ## Sums -/

/-- The exact sum of numbers is a multiple of the last place of the least numbers, so that it is
held when it is below the normal numbers. -/
theorem Format.holds_of_multiple {f : Format} {j : Int} {x : ℚ} {place : Int}
    (hp : 2 ≤ f.precision) (hx : x = j * 2 ^ place) (hplace : f.leastPlace ≤ place)
    (hsmall : |x| < 2 ^ f.minExponent) : f.Holds x := by
  obtain ⟨i, hi⟩ := Format.exists_multiple (K := ℚ) hplace j
  refine ⟨i, f.leastPlace, ?_, le_rfl, hx.trans hi⟩
  have hpos := Format.two_zpow_pos (K := ℚ) f.leastPlace
  have hsplit : (2 : ℚ) ^ f.minExponent = 2 ^ (f.precision - 1) * 2 ^ f.leastPlace := by
    rw [← zpow_natCast, ← zpow_add₀ two_ne_zero]
    congr 1
    simp only [Format.leastPlace]
    omega
  rw [hx.trans hi, abs_mul, abs_of_pos hpos, hsplit, mul_lt_mul_iff_left₀ hpos] at hsmall
  have hlt : |i| < 2 ^ (f.precision - 1) := by exact_mod_cast hsmall
  exact hlt.trans_le (pow_le_pow_right₀ (by norm_num) (Nat.sub_le _ _))

theorem Rounded.exact_exceptions_and (x : Extended) (bits : Word) :
    (Rounded.exact x).exceptions &&& bits = 0 := BitVec.zero_and

/-- A number that is held when it is below the normal ones does not underflow. -/
theorem RoundsTo.no_underflow {f : Format} {mode : Rounding} {x : ℚ} {result : Rounded}
    (h : RoundsTo f mode x result) (hx : |x| < 2 ^ f.minExponent → f.Holds x) :
    result.exceptions &&& Exception.underflow = 0 := by
  have hprecision : Exception.precision &&& Exception.underflow = 0 := by decide
  have hoverflow :
      (Exception.overflow ||| Exception.precision) &&& Exception.underflow = 0 := by decide
  cases h with
  | inRange rounds =>
    unfold roundingExceptions
    split_ifs with hexact hsmall
    · exact BitVec.zero_and
    · exact absurd (rounds.eq_of_holds (hx hsmall)) hexact
    · exact hprecision
  | infinite => exact hoverflow
  | largest => exact hoverflow

namespace Extended

/-- The sign of two zeros that have the same sign. -/
def commonZeroSign? (a b : Extended) : Option Bool :=
  if a.isZero && b.isZero && a.sign == b.sign then some a.sign else none

/-- A result is an exact sum `x`, rounded once.  It never underflows.  An exact zero has the sign
`common?`, when there is one; else it is negative only when rounding down. -/
structure SumsTo (mode : Rounding) (common? : Option Bool) (x : ℚ) (result : Rounded) : Prop where
  roundsTo : RoundsTo .extended mode x result
  no_underflow : result.exceptions &&& Exception.underflow = 0
  sign_of_zero : x = 0 → result.value.sign = common?.getD (mode == .down)

variable {mode : Rounding} {a b : Extended}

theorem zero_roundsTo (mode : Rounding) (sign : Bool) :
    RoundsTo .extended mode (0 : ℚ) (.exact (zero sign)) := by
  have h := exact_roundsTo mode (zero_isFinite sign) (zero_hasEncoding sign)
  rwa [toRat_zero] at h

/-! ### The operands at one exponent -/

/-- A quotient of naturals lies between two next ones, and above the lower one when anything is
left. -/
theorem natCast_div_bounds (m : Nat) {n : Nat} (hn : 0 < n) :
    ((m / n : Nat) : ℚ) ≤ m / n ∧ (m / n : ℚ) < (m / n : Nat) + 1 ∧
      ((m % n != 0) = true ↔ ((m / n : Nat) : ℚ) < m / n) := by
  have hn' : (0 : ℚ) < n := by exact_mod_cast hn
  have hdiv := Nat.div_add_mod m n
  refine ⟨?_, ?_, ?_⟩
  · rw [le_div_iff₀ hn']
    exact_mod_cast Nat.div_mul_le_self m n
  · rw [div_lt_iff₀ hn']
    exact_mod_cast (Nat.lt_mul_div_succ m hn).trans_eq (mul_comm _ _)
  · rw [lt_div_iff₀ hn', bne_iff_ne]
    norm_cast
    rw [mul_comm]
    omega

/-- A significand with its guard bits has at most 126 bits. -/
theorem shiftLeft_guardBits_lt {m : Nat} (h : m < 2 ^ 64) : m <<< guardBits < 2 ^ 126 := by
  rw [Nat.shiftLeft_eq]
  exact (Nat.mul_lt_mul_of_pos_right h (Nat.two_pow_pos guardBits)).trans_eq
    (Nat.pow_add 2 64 62).symm

/-- What is moved down ends in a sticky bit, at any distance. -/
theorem aligned_eq {m : Nat} (h : m < 2 ^ 64) (distance : Nat) :
    aligned m distance =
      orSticky (m <<< guardBits / 2 ^ distance) (m <<< guardBits % 2 ^ distance != 0) := by
  have hlt := shiftLeft_guardBits_lt h
  unfold aligned
  dsimp only
  generalize m <<< guardBits = whole at hlt
  split
  next hzero =>
    rw [hzero, Nat.pow_zero, Nat.div_one, Nat.mod_one, bne_self_eq_false, orSticky_false]
  next =>
    split
    next hfar =>
      have hless : whole < 2 ^ distance :=
        hlt.trans_le (Nat.pow_le_pow_right Nat.two_pos (by omega))
      rw [Nat.div_eq_of_lt hless, Nat.mod_eq_of_lt hless, orSticky, Nat.zero_or]
    next =>
      have hcut : (whole >>> distance <<< distance != whole) = (whole % 2 ^ distance != 0) := by
        have hdiv := Nat.div_add_mod' whole (2 ^ distance)
        rw [Nat.shiftRight_eq_div_pow, Nat.shiftLeft_eq, Bool.eq_iff_iff, bne_iff_ne, bne_iff_ne]
        omega
      rw [hcut, Nat.shiftRight_eq_div_pow]

/-- A sum with a sticky bit has it at its end, when the other operand is even. -/
theorem add_orSticky {m : Nat} (hm : 2 ∣ m) (n : Nat) (cut : Bool) :
    m + orSticky n cut = orSticky (m + n) cut := by
  cases cut with
  | false => rw [orSticky_false, orSticky_false]
  | true =>
    rw [orSticky_true, orSticky_true]
    omega

/-- A difference with a sticky bit has it at its end, and is cut off one unit lower. -/
theorem sub_orSticky {m : Nat} (hm : 2 ∣ m) {n : Nat} (hn : n < m) :
    m - orSticky n true = orSticky (m - n - 1) true := by
  rw [orSticky_true, orSticky_true]
  omega

section Aligned

variable {m n : Nat} {t : ℚ} {cut : Bool}

/-- The sum of an even significand and a number that is cut off. -/
theorem sum_agreeAt (hm : 2 ∣ m) (hlow : n ≤ t) (hhigh : t < n + 1)
    (hcut : cut = true ↔ (n : ℚ) < t) (place : Int) :
    AgreeAt (place + 1) ((m + t) * 2 ^ place) ((m + orSticky n cut : Nat) * 2 ^ place) := by
  rw [add_orSticky hm]
  refine agreeAt_orSticky place ?_ ?_ (hcut.trans ?_)
  · push_cast
    linarith
  · push_cast
    linarith
  · rw [Nat.cast_add, add_lt_add_iff_left]

/-- The difference of an even significand and a number that is cut off. -/
theorem difference_agreeAt (hm : 2 ∣ m) (hn : n < m) (hlow : (n : ℚ) < t) (hhigh : t < n + 1)
    (place : Int) :
    AgreeAt (place + 1) ((m - t) * 2 ^ place) ((m - orSticky n true : Nat) * 2 ^ place) := by
  have hcast : ((m - n - 1 : Nat) : ℚ) = m - n - 1 := by
    rw [Nat.cast_sub (by omega), Nat.cast_sub hn.le, Nat.cast_one]
  rw [sub_orSticky hm hn]
  refine agreeAt_orSticky place ?_ ?_ ⟨fun _ => ?_, fun _ => rfl⟩ <;> rw [hcast] <;> linarith

end Aligned

/-! ### Sums of numbers that are not zero -/

/-- Two magnitudes of a sum as multiples of one power of two.  The larger one is `m`, and the other
one, `t`, is cut off to `n`.  The larger one has its top bit unless it has the least exponent, and
then nothing is cut off. -/
structure Addends (m n : Nat) (cut : Bool) (t : ℚ) (place : Int) : Prop where
  even : 2 ∣ m
  two_le : 2 ≤ m
  lt : m < 2 ^ 126
  cut_lt : n < 2 ^ 126
  low : n ≤ t
  high : t < n + 1
  cut_iff : cut = true ↔ (n : ℚ) < t
  least_le : -16382 - 125 ≤ place
  full : place = -16382 - 125 ∨ 2 ^ 125 ≤ m
  far : cut = true → 2 ^ 125 ≤ m ∧ n < 2 ^ 63

namespace Addends

variable {sign : Bool} {m n : Nat} {cut : Bool} {t : ℚ} {place : Int}

/-- The sticky bit of a sum is below its last place, and the sum is not so small that it could
vanish. -/
theorem roundsTo_of_agreeAt (h : Addends m n cut t place) {significand : Nat} {x : ℚ}
    (hlow : 2 ≤ significand) (hbits : significand < 2 ^ 128)
    (hfull : place = -16382 - 125 ∨ 2 ^ 124 ≤ significand)
    (hx : AgreeAt (place + 1) x (significand * 2 ^ place)) :
    RoundsTo .extended mode (signed sign x) (roundTo .extended mode sign significand place) := by
  have hs : significand ≠ 0 := by omega
  have hlog : 1 ≤ significand.log2 := (Nat.le_log2 hs).2 hlow
  have hleast := h.least_le
  refine roundTo_roundsTo Format.extended_fitsRegisters hs hbits hx ?_ (by omega) fun _ => ?_
  · simp only [lastPlace, Format.extended]
    rcases hfull with hplace | htop
    · omega
    · have : 124 ≤ significand.log2 := (Nat.le_log2 hs).2 htop
      omega
  · simp only [depthLimit, Format.extended]
    omega

/-- Sums and differences that are not cut off. -/
theorem exact_roundsTo (h : Addends m n cut t place) {significand : Nat} (hs : significand ≠ 0)
    (hbits : significand < 2 ^ 126) :
    RoundsTo .extended mode (signed sign ((significand : ℚ) * 2 ^ place))
      (roundTo .extended mode sign significand place) := by
  have hleast := h.least_le
  refine roundTo_exact_roundsTo Format.extended_fitsRegisters hs (by omega) fun _ => ?_
  simp only [depthLimit, Format.extended]
  omega

theorem sum_roundsTo (h : Addends m n cut t place) :
    RoundsTo .extended mode (signed sign ((m + t) * 2 ^ place))
      (roundTo .extended mode sign (m + orSticky n cut) place) := by
  have hm := h.two_le
  have hmlt := h.lt
  have hnlt := h.cut_lt
  have hle := orSticky_le n cut
  exact h.roundsTo_of_agreeAt (by omega) (by omega) (h.full.imp_right fun htop => by omega)
    (sum_agreeAt h.even h.low h.high h.cut_iff place)

/-- What is not cut off is exact. -/
theorem eq_of_exact (h : Addends m n false t place) : t = n :=
  (h.low.eq_or_lt.resolve_right fun hlt => nomatch h.cut_iff.2 hlt).symm

/-- What is cut off is far below the larger operand. -/
theorem orSticky_lt (h : Addends m n true t place) : orSticky n true < m := by
  obtain ⟨htop, hn⟩ := h.far rfl
  have hle := orSticky_le n true
  omega

theorem sub_eq_zero_iff (h : Addends m n cut t place) : m - t = 0 ↔ orSticky n cut = m := by
  cases cut with
  | false =>
    rw [h.eq_of_exact, orSticky_false, sub_eq_zero, Nat.cast_inj, eq_comm]
  | true =>
    obtain ⟨htop, hn⟩ := h.far rfl
    have hbelow : t < m := h.high.trans_le (by exact_mod_cast (by omega : n + 1 ≤ m))
    exact iff_of_false (sub_pos.2 hbelow).ne' h.orSticky_lt.ne

theorem roundsTo_of_lt (h : Addends m n cut t place) (hlt : orSticky n cut < m) :
    RoundsTo .extended mode (signed sign ((m - t) * 2 ^ place))
      (roundTo .extended mode sign (m - orSticky n cut) place) := by
  have hm := h.lt
  cases cut with
  | false =>
    rw [orSticky_false] at hlt ⊢
    rw [h.eq_of_exact, ← Nat.cast_sub hlt.le]
    exact h.exact_roundsTo (by omega) (by omega)
  | true =>
    obtain ⟨htop, hn⟩ := h.far rfl
    have hle := orSticky_le n true
    refine h.roundsTo_of_agreeAt (by omega) (by omega) (.inr (by omega)) ?_
    exact difference_agreeAt h.even (by omega) (h.cut_iff.1 rfl) h.high place

theorem roundsTo_of_gt (h : Addends m n cut t place) (hgt : m < orSticky n cut) :
    RoundsTo .extended mode (signed sign ((m - t) * 2 ^ place))
      (roundTo .extended mode (!sign) (orSticky n cut - m) place) := by
  have hn := h.cut_lt
  cases cut with
  | false =>
    rw [orSticky_false] at hgt ⊢
    have hswap : signed sign (((m : ℚ) - n) * 2 ^ place) =
        signed (!sign) (((n - m : Nat) : ℚ) * 2 ^ place) := by
      rw [Nat.cast_sub hgt.le]
      cases sign <;> simp [signed] <;> ring
    rw [h.eq_of_exact, hswap]
    exact h.exact_roundsTo (by omega) (by omega)
  | true => exact absurd h.orSticky_lt hgt.not_gt

end Addends

section AddAligned

variable {big small : Extended}

/-- The place at which two numbers are added. -/
def sumPlace (big : Extended) : Int := big.topExponent - (guardBits + 63)

/-- How far the smaller one of two numbers is moved down to be added. -/
def sumDistance (big small : Extended) : Nat := (big.topExponent - small.topExponent).toNat

/-- A significand with its guard bits. -/
def guarded (x : Extended) : Nat := x.significand.toNat <<< guardBits

/-- What is left of the smaller one of two numbers where they are added. -/
def movedDown (big small : Extended) : Nat := small.guarded / 2 ^ sumDistance big small

/-- Whether something of the smaller one is cut off there. -/
def isCutOff (big small : Extended) : Bool := small.guarded % 2 ^ sumDistance big small != 0

/-- The smaller one as it is, at the place of the sum. -/
def exactAddend (big small : Extended) : ℚ := small.guarded / (2 ^ sumDistance big small : Nat)

theorem guarded_lt (x : Extended) : x.guarded < 2 ^ 126 :=
  shiftLeft_guardBits_lt x.significand.isLt

theorem addAligned_eq (mode : Rounding) (big small : Extended) :
    let n := orSticky (movedDown big small) (isCutOff big small)
    addAligned mode big small =
      if big.sign = small.sign then roundTo .extended mode big.sign (big.guarded + n) big.sumPlace
      else if n < big.guarded then
        roundTo .extended mode big.sign (big.guarded - n) big.sumPlace
      else if big.guarded < n then
        roundTo .extended mode small.sign (n - big.guarded) big.sumPlace
      else .exact (zero (mode == .down)) := by
  unfold addAligned
  dsimp only
  rw [aligned_eq small.significand.isLt]
  rfl

theorem le_topExponent (x : Extended) : -16382 ≤ x.topExponent := by
  have h := leastPlace_le_scale x
  simp only [Format.leastPlace, Format.extended, scale] at h
  omega

/-- The larger one of two numbers at the place at which they are added. -/
theorem guarded_mul (x : Extended) :
    (x.guarded : ℚ) * 2 ^ x.sumPlace = x.significand.toNat * 2 ^ x.scale := by
  have hscale : x.scale = (guardBits : Int) + x.sumPlace := by
    simp only [scale, sumPlace]
    omega
  rw [hscale, zpow_add₀ two_ne_zero, zpow_natCast, guarded, Nat.shiftLeft_eq]
  push_cast
  ring

/-- The smaller one, which need not be a multiple there. -/
theorem exactAddend_mul (hle : small.topExponent ≤ big.topExponent) :
    exactAddend big small * 2 ^ big.sumPlace = small.significand.toNat * 2 ^ small.scale := by
  have hplace : big.sumPlace = (sumDistance big small : Int) + small.sumPlace := by
    simp only [sumPlace, sumDistance]
    omega
  have hne : ((2 : ℚ) ^ sumDistance big small) ≠ 0 := pow_ne_zero _ two_ne_zero
  rw [← guarded_mul, hplace, zpow_add₀ two_ne_zero, zpow_natCast, exactAddend, Nat.cast_pow,
    Nat.cast_two, ← mul_assoc, div_mul_cancel₀ _ hne]

/-- The guard bits hold what is moved by few places. -/
theorem le_sumDistance_of_isCutOff (h : isCutOff big small = true) :
    63 ≤ sumDistance big small := by
  by_contra hnear
  rw [isCutOff, bne_iff_ne] at h
  refine h (Nat.mod_eq_zero_of_dvd ?_)
  rw [guarded, Nat.shiftLeft_eq]
  exact Nat.dvd_mul_left_of_dvd (Nat.pow_dvd_pow 2 (by simp only [guardBits]; omega)) _

theorem le_guarded (hbig : big.isFiniteNonzero = true) (hne : big.exponent ≠ 0) :
    2 ^ 125 ≤ big.guarded := by
  have hnan := (isFiniteNonzero_iff.1 hbig).1
  rw [guarded, Nat.shiftLeft_eq]
  calc 2 ^ 125 = 2 ^ 63 * 2 ^ guardBits := by decide
    _ ≤ big.significand.toNat * 2 ^ guardBits :=
      Nat.mul_le_mul_right _ (le_significand_of_not_isNan hnan hne)

/-- The magnitudes of two numbers at the place at which they are added. -/
theorem addends (hbig : big.isFiniteNonzero = true) (hle : small.topExponent ≤ big.topExponent) :
    Addends big.guarded (movedDown big small) (isCutOff big small) (exactAddend big small)
      big.sumPlace := by
  have hpos := significand_pos hbig
  obtain ⟨hlow, hhigh, hcut⟩ := natCast_div_bounds small.guarded
    (Nat.two_pow_pos (sumDistance big small))
  have hbottom (hzero : big.exponent = 0) : big.topExponent = -16382 := by
    rw [topExponent, if_pos hzero]
    rfl
  constructor
  case even =>
    rw [guarded, Nat.shiftLeft_eq]
    exact Nat.dvd_mul_left_of_dvd (by decide) _
  case two_le =>
    rw [guarded, Nat.shiftLeft_eq]
    exact (show 2 ≤ 1 * 2 ^ guardBits by decide).trans (Nat.mul_le_mul_right _ hpos)
  case lt => exact guarded_lt big
  case cut_lt => exact (Nat.div_le_self _ _).trans_lt (guarded_lt small)
  case low => exact hlow
  case high => exact hhigh
  case cut_iff => exact hcut
  case least_le =>
    have hleast := le_topExponent big
    simp only [sumPlace, guardBits]
    omega
  case full =>
    rcases eq_or_ne big.exponent 0 with hzero | hne
    · left
      rw [sumPlace, hbottom hzero]
      rfl
    · exact .inr (le_guarded hbig hne)
  case far =>
    intro hany
    have hfar := le_sumDistance_of_isCutOff hany
    have hne : big.exponent ≠ 0 := by
      intro hzero
      have hsame := le_topExponent small
      have htop := hbottom hzero
      simp only [sumDistance] at hfar
      omega
    refine ⟨le_guarded hbig hne, ?_⟩
    rw [movedDown, Nat.div_lt_iff_lt_mul (Nat.two_pow_pos _), ← Nat.pow_add]
    exact (guarded_lt small).trans_le (Nat.pow_le_pow_right Nat.two_pos (by omega))

theorem toRat_add_of_sign_eq (hle : small.topExponent ≤ big.topExponent)
    (hsign : big.sign = small.sign) : big.toRat + small.toRat =
      signed big.sign ((big.guarded + exactAddend big small) * 2 ^ big.sumPlace) := by
  rw [add_mul, guarded_mul, exactAddend_mul hle, toRat, toRat, ← hsign]
  cases big.sign <;> simp [signed, add_comm]

theorem toRat_add_of_sign_ne (hle : small.topExponent ≤ big.topExponent)
    (hsign : small.sign = !big.sign) : big.toRat + small.toRat =
      signed big.sign ((big.guarded - exactAddend big small) * 2 ^ big.sumPlace) := by
  rw [sub_mul, guarded_mul, exactAddend_mul hle, toRat, toRat, hsign]
  cases big.sign <;> simp [signed] <;> ring

/-- The sum of numbers that have the same sign. -/
theorem addAligned_roundsTo_of_sign_eq (hbig : big.isFiniteNonzero = true)
    (hle : small.topExponent ≤ big.topExponent) (hsign : big.sign = small.sign) :
    RoundsTo .extended mode (big.toRat + small.toRat) (addAligned mode big small) ∧
      big.toRat + small.toRat ≠ 0 := by
  have h := addends hbig hle
  have hpos := Format.two_zpow_pos (K := ℚ) big.sumPlace
  have htwo := h.two_le
  have hbigpos : (0 : ℚ) < big.guarded := by exact_mod_cast (by omega : 0 < big.guarded)
  have hsmall : 0 ≤ exactAddend big small := (Nat.cast_nonneg _).trans h.low
  rw [addAligned_eq, if_pos hsign, toRat_add_of_sign_eq hle hsign]
  exact ⟨h.sum_roundsTo,
    signed_ne_zero (mul_pos (add_pos_of_pos_of_nonneg hbigpos hsmall) hpos).ne'⟩

/-- The sum of numbers that have opposite signs is zero when the larger one is what is left of the
other, with the sticky bit. -/
theorem toRat_add_eq_zero_iff (hbig : big.isFiniteNonzero = true)
    (hle : small.topExponent ≤ big.topExponent) (hsign : small.sign = !big.sign) :
    big.toRat + small.toRat = 0 ↔
      orSticky (movedDown big small) (isCutOff big small) = big.guarded := by
  have hpos := Format.two_zpow_pos (K := ℚ) big.sumPlace
  rw [toRat_add_of_sign_ne hle hsign, ← (addends hbig hle).sub_eq_zero_iff]
  constructor
  · intro hzero
    by_contra hne
    exact signed_ne_zero (mul_ne_zero hne hpos.ne') hzero
  · intro hzero
    rw [hzero, zero_mul, signed_zero]

/-- The sum of numbers that have opposite signs. -/
theorem addAligned_roundsTo_of_sign_ne (hbig : big.isFiniteNonzero = true)
    (hle : small.topExponent ≤ big.topExponent) (hsign : small.sign = !big.sign) :
    RoundsTo .extended mode (big.toRat + small.toRat) (addAligned mode big small) ∧
      (big.toRat + small.toRat = 0 → (addAligned mode big small).value.sign = (mode == .down)) := by
  have h := addends hbig hle
  have hzero_iff := toRat_add_eq_zero_iff hbig hle hsign
  have hdiffer : ¬big.sign = small.sign := by
    rw [hsign]
    exact Bool.self_ne_not big.sign
  rw [addAligned_eq, if_neg hdiffer]
  rcases lt_trichotomy (orSticky (movedDown big small) (isCutOff big small)) big.guarded with
    hlt | heq | hgt
  · rw [if_pos hlt]
    refine ⟨?_, fun hzero => absurd (hzero_iff.1 hzero) hlt.ne⟩
    rw [toRat_add_of_sign_ne hle hsign]
    exact h.roundsTo_of_lt hlt
  · rw [if_neg heq.not_lt, if_neg heq.not_gt, hzero_iff.2 heq]
    exact ⟨zero_roundsTo mode _, fun _ => rfl⟩
  · rw [if_neg hgt.not_gt, if_pos hgt]
    refine ⟨?_, fun hzero => absurd (hzero_iff.1 hzero) hgt.ne'⟩
    rw [toRat_add_of_sign_ne hle hsign, hsign]
    exact h.roundsTo_of_gt hgt

/-- The sum of numbers that are not zero, the first of which has the larger exponent. -/
theorem addAligned_roundsTo (hbig : big.isFiniteNonzero = true)
    (hle : small.topExponent ≤ big.topExponent) :
    RoundsTo .extended mode (big.toRat + small.toRat) (addAligned mode big small) ∧
      (big.toRat + small.toRat = 0 → (addAligned mode big small).value.sign = (mode == .down)) := by
  rcases Bool.eq_or_eq_not small.sign big.sign with hsign | hsign
  · exact (addAligned_roundsTo_of_sign_eq hbig hle hsign.symm).imp_right
      fun hne hzero => absurd hzero hne
  · exact addAligned_roundsTo_of_sign_ne hbig hle hsign

end AddAligned

/-- The sum of numbers that are not zero.  It is a multiple of the last place of the least numbers,
so that it does not underflow. -/
theorem addNumbers_sumsTo_of_nonzero (ha : a.isFiniteNonzero = true)
    (hb : b.isFiniteNonzero = true) :
    SumsTo mode (commonZeroSign? a b) (a.toRat + b.toRat) (addNumbers mode a b) := by
  obtain ⟨-, hai, haz⟩ := isFiniteNonzero_iff.1 ha
  obtain ⟨-, hbi, hbz⟩ := isFiniteNonzero_iff.1 hb
  have hcommon : commonZeroSign? a b = none := by simp [commonZeroSign?, haz]
  have hrounds : RoundsTo .extended mode (a.toRat + b.toRat) (addNumbers mode a b) ∧
      (a.toRat + b.toRat = 0 → (addNumbers mode a b).value.sign = (mode == .down)) := by
    unfold addNumbers
    simp only [hai, hbi, haz, hbz, Bool.false_eq_true, if_false, Bool.false_and]
    split
    next hle => exact addAligned_roundsTo ha hle
    next hnot =>
      rw [add_comm]
      exact addAligned_roundsTo hb (by omega)
  have hplace : Format.extended.leastPlace ≤ min a.scale b.scale :=
    le_min (leastPlace_le_scale a) (leastPlace_le_scale b)
  have hsum : a.toRat + b.toRat =
      ((a.multipleOf (min a.scale b.scale) + b.multipleOf (min a.scale b.scale) : Int) : ℚ) *
        2 ^ min a.scale b.scale := by
    rw [Int.cast_add, add_mul, multipleOf_mul (min_le_left _ _), multipleOf_mul (min_le_right _ _)]
  refine ⟨hrounds.1, hrounds.1.no_underflow fun hsmall =>
    Format.holds_of_multiple (by decide) hsum hplace hsmall, ?_⟩
  rw [hcommon]
  exact hrounds.2

/-- The sum of finite numbers.  A sum with a zero is the other number as it is, so that it must be
one that ten bytes can hold. -/
theorem addNumbers_sumsTo (ha : a.IsFinite) (hb : b.IsFinite)
    (henc : a.isZero = true ∨ b.isZero = true → a.HasEncoding ∧ b.HasEncoding) :
    SumsTo mode (commonZeroSign? a b) (a.toRat + b.toRat) (addNumbers mode a b) := by
  obtain ⟨-, hai⟩ := isFinite_iff.1 ha
  obtain ⟨-, hbi⟩ := isFinite_iff.1 hb
  rcases ha with haz | hanz <;> rcases hb with hbz | hbnz
  · -- Two zeros.
    have hadd : addNumbers mode a b =
        .exact (zero ((commonZeroSign? a b).getD (mode == .down))) := by
      unfold addNumbers commonZeroSign?
      simp only [hai, hbi, haz, hbz, Bool.false_eq_true, if_false, Bool.and_true, if_true,
        Bool.true_and, beq_iff_eq]
      split_ifs <;> rfl
    rw [hadd, toRat_of_isZero haz, toRat_of_isZero hbz, add_zero]
    exact ⟨zero_roundsTo mode _, Rounded.exact_exceptions_and _ _, fun _ => rfl⟩
  · obtain ⟨-, -, hbz⟩ := isFiniteNonzero_iff.1 hbnz
    have hadd : addNumbers mode a b = .exact b := by
      unfold addNumbers
      simp only [hai, hbi, haz, hbz, Bool.false_eq_true, if_false, Bool.and_false, if_true]
    rw [hadd, toRat_of_isZero haz, zero_add]
    exact ⟨exact_roundsTo mode (.inr hbnz) (henc (.inl haz)).2, Rounded.exact_exceptions_and _ _,
      fun hzero => absurd hzero (toRat_ne_zero hbnz)⟩
  · obtain ⟨-, -, haz⟩ := isFiniteNonzero_iff.1 hanz
    have hadd : addNumbers mode a b = .exact a := by
      unfold addNumbers
      simp only [hai, hbi, haz, hbz, Bool.false_eq_true, if_false, Bool.false_and, if_true]
    rw [hadd, toRat_of_isZero hbz, add_zero]
    exact ⟨exact_roundsTo mode (.inr hanz) (henc (.inr hbz)).1, Rounded.exact_exceptions_and _ _,
      fun hzero => absurd hzero (toRat_ne_zero hanz)⟩
  · exact addNumbers_sumsTo_of_nonzero hanz hbnz

theorem nanResult?_eq_none (ha : a.isNan = false) (hb : b.isNan = false) :
    nanResult? a b = none := by
  simp [nanResult?, ha, hb]

/-- Sums and differences of finite numbers are rounded correctly. -/
theorem add_sub_sumsTo (mode : Rounding) {a b : Extended} (ha : a.IsFinite) (hb : b.IsFinite)
    (henc : a.isZero = true ∨ b.isZero = true → a.HasEncoding ∧ b.HasEncoding) :
    SumsTo mode (commonZeroSign? a b) (a.toRat + b.toRat) (add mode a b) ∧
      SumsTo mode (commonZeroSign? a b.neg) (a.toRat - b.toRat) (sub mode a b) := by
  have hnan := nanResult?_eq_none (isFinite_iff.1 ha).1 (isFinite_iff.1 hb).1
  constructor
  · rw [add, hnan]
    exact addNumbers_sumsTo ha hb henc
  · rw [sub, hnan, sub_eq_add_neg, ← toRat_neg]
    exact addNumbers_sumsTo ha (isFinite_neg.2 hb) henc

/-- The least number is added to one and taken from it, rounded toward zero. -/
theorem add_sub_sumsTo_least :
    one.IsFinite ∧ (⟨true, 0, 1⟩ : Extended).IsFinite ∧
      SumsTo .zero (commonZeroSign? one ⟨true, 0, 1⟩) (one.toRat + (⟨true, 0, 1⟩ : Extended).toRat)
        (add .zero one ⟨true, 0, 1⟩) ∧
      SumsTo .zero (commonZeroSign? one (⟨true, 0, 1⟩ : Extended).neg)
        (one.toRat - (⟨true, 0, 1⟩ : Extended).toRat) (sub .zero one ⟨true, 0, 1⟩) :=
  have hone : one.IsFinite := by decide
  have hleast : (⟨true, 0, 1⟩ : Extended).IsFinite := by decide
  ⟨hone, hleast, add_sub_sumsTo .zero hone hleast (by decide)⟩

end Extended

/-! ## Products -/

/-- The part of a number that is kept is moved by so many places to be encoded that a count of them
for words of 128 bits overflows. -/
def Kept.Overshifts (kept : Kept) : Prop :=
  kept.significand ≠ 0 ∧ kept.place + kept.significand.log2 < Extended.minExponent ∧
    128 ≤ (Extended.denormalMove kept.place).natAbs

instance (kept : Kept) : Decidable kept.Overshifts := inferInstanceAs (Decidable (_ ∧ _ ∧ _))

/-- A number lies so far below the normal ones that it vanishes, though the direction of rounding
leads it away from zero. -/
def Vanishes (mode : Rounding) (x : ℚ) : Prop :=
  mode.LeadsAway x ∧ |x| < 2 ^ (Format.extended.minExponent - depthLimit)

/-- A result is an exact value `x`, rounded once, unless it vanishes. -/
structure RoundsUnlessVanishing (mode : Rounding) (x : ℚ) (result : Rounded) : Prop where
  roundsTo : ¬Vanishes mode x → RoundsTo .extended mode x result
  vanished : Vanishes mode x →
    result = ⟨.zero (x < 0), Exception.precision ||| Exception.underflow⟩

/-- Nothing that is led away from zero is rounded to zero. -/
theorem RoundsTo.isZero_of_leadsAway {f : Format} {mode : Rounding} {x : ℚ} {result : Rounded}
    (h : RoundsTo f mode x result) (haway : mode.LeadsAway x) : result.value.isZero = false := by
  cases h with
  | @inRange r value rounds _ _ toRat_eq _ =>
    have hne : r ≠ 0 := by
      rcases haway with ⟨rfl, hpos⟩ | ⟨rfl, hneg⟩
      · exact (hpos.trans_le rounds.1.2).ne'
      · exact (rounds.1.2.trans_lt hneg).ne
    refine Bool.eq_false_iff.2 fun hzero => hne ?_
    rw [← toRat_eq, Rat.cast_id, Extended.toRat_of_isZero hzero]
  | infinite => rfl
  | largest _ _ toward => exact absurd (.inr haway) toward

section Vanishing

variable {mode : Rounding} {sign : Bool} {significand : Nat} {scale : Int}

/-- What lies too far below the normal numbers and is led away from zero.  One unit is kept, at a
place below that of the least number. -/
theorem keep_of_vanishing (hs : significand ≠ 0) (hbits : significand < 2 ^ 128)
    (hfar : depthLimit < Format.extended.minExponent - (scale + significand.log2))
    (haway : mode.awayFromZero sign false false true = true) :
    Format.extended.keep mode sign significand scale =
      ⟨1, scale + significand.log2 + 137, true, true⟩ := by
  rw [keep_of_far mode sign Format.extended_fitsRegisters hs hbits hfar, haway]
  congr 1
  simp only [depthLimit, Format.extended]
  omega

/-- Only what vanishes can be moved too far, and it is when it lies 128 places deeper. -/
theorem keep_overshifts_iff (hs : significand ≠ 0) (hbits : significand < 2 ^ 128) :
    (Format.extended.keep mode sign significand scale).Overshifts ↔
      mode.awayFromZero sign false false true = true ∧
        depthLimit + 128 ≤ Format.extended.minExponent - (scale + significand.log2) := by
  unfold Kept.Overshifts
  rcases le_or_gt (Format.extended.minExponent - (scale + significand.log2)) depthLimit with
    hnear | hfar
  · rw [keep_of_near mode sign Format.extended_fitsRegisters hbits hnear]
    refine iff_of_false ?_ (by omega)
    rintro ⟨-, hsmall, hmove⟩
    -- The last place is not below that of the least numbers.
    have hplace : Format.extended.leastPlace ≤ lastPlace .extended significand scale :=
      leastPlace_le_lastPlace
    simp only [Format.leastPlace, Format.extended, Extended.minExponent, Extended.denormalMove]
      at hplace hsmall hmove
    omega
  · cases haway : mode.awayFromZero sign false false true with
    | false =>
      rw [keep_of_far mode sign Format.extended_fitsRegisters hs hbits hfar, haway]
      simp
    | true =>
      rw [keep_of_vanishing hs hbits hfar haway]
      have hlog : Nat.log2 1 = 0 := by decide
      simp only [Format.extended, Extended.minExponent, Extended.denormalMove, depthLimit, hlog]
        at hfar ⊢
      constructor
      · rintro ⟨-, -, hmove⟩
        exact ⟨trivial, by omega⟩
      · rintro ⟨-, hdeep⟩
        exact ⟨Nat.one_ne_zero, by omega, by omega⟩

/-- The same in terms of the number. -/
theorem keep_overshifts_iff_lt (hs : significand ≠ 0) (hbits : significand < 2 ^ 128) :
    (Format.extended.keep mode sign significand scale).Overshifts ↔
      mode.LeadsAway (signed sign ((significand : ℚ) * 2 ^ scale)) ∧
        |signed sign ((significand : ℚ) * 2 ^ scale)| <
          2 ^ (Format.extended.minExponent - depthLimit - 127) := by
  have hpos : (0 : ℚ) < significand * 2 ^ scale :=
    mul_pos (by exact_mod_cast Nat.pos_of_ne_zero hs) (Format.two_zpow_pos _)
  rw [keep_overshifts_iff hs hbits, awayFromZero_iff hpos, abs_signed hpos.le, ← not_le,
    two_zpow_le_iff hs]
  refine and_congr_right fun _ => ?_
  omega

/-- The one unit that is kept of what vanishes is moved out of the significand, unless the number
of places is a multiple of 128. -/
theorem roundTo_of_vanishing (hs : significand ≠ 0) (hbits : significand < 2 ^ 128)
    (hfar : depthLimit < Format.extended.minExponent - (scale + significand.log2))
    (haway : mode.awayFromZero sign false false true = true) :
    roundTo .extended mode sign significand scale =
      ⟨⟨sign, 0, if 128 ∣ Extended.denormalMove
          (Format.extended.keep mode sign significand scale).place then 1 else 0⟩,
        Exception.precision ||| Exception.underflow⟩ := by
  have hlog : Nat.log2 1 = 0 := by decide
  rw [roundTo, if_neg hs, keep_of_vanishing hs hbits hfar haway]
  simp only [Format.extended, depthLimit] at hfar
  have hbelow : ¬Extended.minExponent ≤ scale + significand.log2 + 137 + (Nat.log2 1 : Nat) := by
    rw [hlog]
    simp only [Extended.minExponent]
    omega
  have hrange :
      ¬Format.extended.maxExponent < scale + significand.log2 + 137 + (Nat.log2 1 : Nat) := by
    rw [hlog]
    simp only [Format.extended]
    omega
  have hmove : Extended.denormalMove (scale + significand.log2 + 137) < 0 := by
    simp only [Extended.denormalMove, Extended.minExponent]
    omega
  simp only [Format.pack, hrange, Nat.one_ne_zero, if_false, Extended.ofExact, hbelow]
  generalize Extended.denormalMove (scale + significand.log2 + 137) = move at hmove
  have hmoved : Extended.moveBits 1 move = if 128 ∣ move then 1 else 0 := by
    rw [Extended.moveBits, if_neg (by omega)]
    split
    next hdvd =>
      rw [show (-move).toNat % 128 = 0 by omega, Nat.shiftRight_zero]
    next hnot =>
      rw [Nat.shiftRight_eq_div_pow]
      exact Nat.div_eq_of_lt (Nat.one_lt_two_pow (by omega))
  rw [hmoved]
  split <;> rfl

/-- A magnitude is rounded correctly unless it vanishes, when it is not moved too far. -/
theorem roundTo_roundsUnlessVanishing (hs : significand ≠ 0) (hbits : significand < 2 ^ 128)
    (hmove : ¬(Format.extended.keep mode sign significand scale).Overshifts) :
    RoundsUnlessVanishing mode (signed sign ((significand : ℚ) * 2 ^ scale))
      (roundTo .extended mode sign significand scale) := by
  have hpos : (0 : ℚ) < significand * 2 ^ scale :=
    mul_pos (by exact_mod_cast Nat.pos_of_ne_zero hs) (Format.two_zpow_pos _)
  have hbelow : (significand : ℚ) * 2 ^ scale < 2 ^ (Format.extended.minExponent - depthLimit) ↔
      depthLimit < Format.extended.minExponent - (scale + significand.log2) := by
    rw [← not_le, two_zpow_le_iff hs]
    omega
  refine ⟨fun hstays => ?_, fun ⟨haway, hsmall⟩ => ?_⟩
  · refine roundTo_exact_roundsTo Format.extended_fitsRegisters hs hbits fun haway => ?_
    by_contra hfar
    exact hstays ⟨haway, by rwa [abs_signed hpos.le, hbelow, ← not_le]⟩
  · rw [abs_signed hpos.le, hbelow] at hsmall
    have haway' := (awayFromZero_iff hpos).2 haway
    rw [keep_overshifts_iff hs hbits, not_and] at hmove
    have hless := hmove haway'
    rw [roundTo_of_vanishing hs hbits hsmall haway', ← eq_decide_signed_neg sign hpos, if_neg]
    · rfl
    · rw [keep_of_vanishing hs hbits hsmall haway']
      simp only [Format.extended, Extended.minExponent, Extended.denormalMove, depthLimit]
        at hsmall hless ⊢
      omega

end Vanishing

namespace Extended

variable {mode : Rounding} {a b : Extended}

theorem mul_toRat (a b : Extended) : a.toRat * b.toRat =
    signed (a.sign != b.sign)
      (((a.significand.toNat * b.significand.toNat : Nat) : ℚ) * 2 ^ (a.scale + b.scale)) := by
  rw [toRat, toRat, signed_mul_signed, zpow_add₀ two_ne_zero, mul_mul_mul_comm, Nat.cast_mul]

theorem toRat_mul_two_zpow (a : Extended) (n : Int) : a.toRat * 2 ^ n =
    signed a.sign ((a.significand.toNat : ℚ) * 2 ^ (a.scale + n)) := by
  rw [toRat, signed_mul, zpow_add₀ two_ne_zero, mul_assoc]

theorem mul_eq_roundTo (ha : a.isFiniteNonzero = true) (hb : b.isFiniteNonzero = true) :
    mul mode a b = roundTo .extended mode (a.sign != b.sign)
      (a.significand.toNat * b.significand.toNat) (a.scale + b.scale) := by
  obtain ⟨hna, hia, hza⟩ := isFiniteNonzero_iff.1 ha
  obtain ⟨hnb, hib, hzb⟩ := isFiniteNonzero_iff.1 hb
  rw [mul, nanResult?_eq_none hna hnb, Option.getD_none, mulNumbers]
  simp [hia, hib, hza, hzb]

/-- A significand of the registers that is scaled beyond their range. -/
theorem roundTo_of_overflow {sign : Bool} {significand : Nat} {scale : Int}
    (hs : significand ≠ 0) (hbits : significand < 2 ^ 64)
    (hover : Format.extended.maxExponent < scale + significand.log2) :
    roundTo .extended mode sign significand scale =
      ⟨if mode.overflowsToInfinity sign then .infinity sign else Format.extended.largest sign,
        Exception.overflow ||| Exception.precision⟩ := by
  have hlog : significand.log2 ≤ 63 := log2_le_of_lt hs hbits
  simp only [Format.extended] at hover
  have hplace : lastPlace .extended significand scale = scale + significand.log2 - 63 := by
    simp only [lastPlace, Format.extended]
    omega
  -- The whole significand is kept, at the top of a register.
  have hkept : keptPart .extended mode sign significand scale =
      (shift significand (63 - significand.log2), false) := by
    rw [keptPart, hplace, if_pos (by omega)]
    congr 2
    omega
  obtain ⟨hmin, hmax, -⟩ := shift_top hs hbits.le scale
  have htop : (shift significand (63 - significand.log2)).log2 = 63 :=
    (Nat.log2_eq_iff (by omega)).2 ⟨hmin, hmax⟩
  have hnear : Format.extended.minExponent - (scale + significand.log2) ≤ depthLimit := by
    simp only [Format.extended, depthLimit]
    omega
  rw [roundTo, if_neg hs, keep_of_near mode sign Format.extended_fitsRegisters (by omega) hnear,
    hkept, hplace, Format.pack]
  dsimp only
  rw [if_neg (by omega), if_pos (by simp only [Format.extended, htop]; omega), Bool.not_false,
    if_pos rfl]
  rfl

/-- What is kept of a product. -/
def keptProduct (mode : Rounding) (a b : Extended) : Kept :=
  Format.extended.keep mode (a.sign != b.sign) (a.significand.toNat * b.significand.toNat)
    (a.scale + b.scale)

/-- What is kept of a scaled number. -/
def keptScaled (mode : Rounding) (a : Extended) (n : Int) : Kept :=
  Format.extended.keep mode a.sign a.significand.toNat (a.scale + limitPower n)

theorem mul_significands_lt (a b : Extended) :
    a.significand.toNat * b.significand.toNat < 2 ^ 128 :=
  (Nat.mul_lt_mul'' a.significand.isLt b.significand.isLt).trans_eq (by decide)

/-- Products are moved too far when they lie 127 places below what vanishes. -/
theorem keptProduct_overshifts_iff (ha : a.isFiniteNonzero = true) (hb : b.isFiniteNonzero = true) :
    (keptProduct mode a b).Overshifts ↔ mode.LeadsAway (a.toRat * b.toRat) ∧
      |a.toRat * b.toRat| < 2 ^ (Format.extended.minExponent - depthLimit - 127) := by
  have hs := Nat.mul_ne_zero (significand_pos ha).ne' (significand_pos hb).ne'
  rw [mul_toRat]
  exact keep_overshifts_iff_lt hs (mul_significands_lt a b)

section Scaling

variable (ha : a.isFiniteNonzero = true) (n : Int)
include ha

/-- The limit on the power is beyond all that matters to the encoding. -/
theorem keptScaled_overshifts : (keptScaled mode a n).Overshifts ↔
    (Format.extended.keep mode a.sign a.significand.toNat (a.scale + n)).Overshifts := by
  have hs := (significand_pos ha).ne'
  have hbits : a.significand.toNat < 2 ^ 128 := a.significand.isLt.trans (by decide)
  have hlog := log2_significand_le a
  have hlow := leastPlace_le_scale a
  have hhigh := scale_le a
  simp only [Format.leastPlace, Format.extended, bias] at hlow hhigh
  rw [keptScaled, keep_overshifts_iff hs hbits, keep_overshifts_iff hs hbits]
  simp only [limitPower, scaleLimit, depthLimit, Format.extended]
  refine and_congr_right fun _ => ?_
  omega

/-- Scaled numbers are moved too far when they lie 127 places below what vanishes. -/
theorem keptScaled_overshifts_iff :
    (keptScaled mode a n).Overshifts ↔ mode.LeadsAway (a.toRat * 2 ^ n) ∧
      |a.toRat * 2 ^ n| < 2 ^ (Format.extended.minExponent - depthLimit - 127) := by
  rw [keptScaled_overshifts ha, toRat_mul_two_zpow]
  exact keep_overshifts_iff_lt (significand_pos ha).ne' (a.significand.isLt.trans (by decide))

/-- The limit on the power changes no result, unless the result is moved too far. -/
theorem scaleBy_eq_roundTo (hmove : ¬(keptScaled mode a n).Overshifts) :
    scaleBy mode a n = roundTo .extended mode a.sign a.significand.toNat (a.scale + n) := by
  have hs := (significand_pos ha).ne'
  have hbits : a.significand.toNat < 2 ^ 128 := a.significand.isLt.trans (by decide)
  have hlog := log2_significand_le a
  have hlow := leastPlace_le_scale a
  have hhigh := scale_le a
  simp only [Format.leastPlace, Format.extended, bias] at hlow hhigh
  have hover {k : Int} (hk : 70000 ≤ k) :
      Format.extended.maxExponent < a.scale + k + a.significand.toNat.log2 := by
    simp only [Format.extended]
    omega
  have hunder {k : Int} (hk : k ≤ -70000) : depthLimit + 128 ≤
      Format.extended.minExponent - (a.scale + k + a.significand.toNat.log2) := by
    simp only [Format.extended, depthLimit]
    omega
  have hlimit : limitPower n = max (-70000) (min 70000 n) := rfl
  rw [scaleBy, if_pos ha, hlimit]
  rcases le_total 70000 n with habove | hbelow
  · rw [roundTo_of_overflow hs a.significand.isLt (hover habove),
      roundTo_of_overflow hs a.significand.isLt (hover (by omega))]
  · rcases le_total n (-70000) with hdeep | hinside
    · -- So far down only a direction that does not lead away from zero is left.
      rw [keptScaled_overshifts ha, keep_overshifts_iff hs hbits, not_and'] at hmove
      have haway := Bool.not_eq_true _ ▸ hmove (hunder hdeep)
      have hfar {k : Int} (hk : k ≤ -70000) :=
        (show depthLimit < depthLimit + 128 by omega).trans_le (hunder hk)
      rw [roundTo_of_far Format.extended_fitsRegisters hs hbits (hfar hdeep) haway,
        roundTo_of_far Format.extended_fitsRegisters hs hbits (hfar (by omega)) haway]
    · rw [min_eq_right hbelow, max_eq_right hinside]

theorem scaleBy_roundsUnlessVanishing (hmove : ¬(keptScaled mode a n).Overshifts) :
    RoundsUnlessVanishing mode (a.toRat * 2 ^ n) (scaleBy mode a n) := by
  rw [scaleBy_eq_roundTo ha n hmove, toRat_mul_two_zpow]
  exact roundTo_roundsUnlessVanishing (significand_pos ha).ne'
    (a.significand.isLt.trans (by decide)) (mt (keptScaled_overshifts ha n).2 hmove)

/-- A scaled number that is moved too far is zero or the least number. -/
theorem scaleBy_of_overshifts (hmove : (keptScaled mode a n).Overshifts) :
    scaleBy mode a n =
      ⟨⟨a.sign, 0, if 128 ∣ denormalMove (keptScaled mode a n).place then 1 else 0⟩,
        Exception.precision ||| Exception.underflow⟩ := by
  have hs := (significand_pos ha).ne'
  have hbits : a.significand.toNat < 2 ^ 128 := a.significand.isLt.trans (by decide)
  obtain ⟨haway, hdeep⟩ := (keep_overshifts_iff hs hbits).1 hmove
  rw [scaleBy, if_pos ha]
  exact roundTo_of_vanishing hs hbits (by omega) haway

end Scaling

/-- Products and scaled numbers are rounded correctly, unless they vanish.  This is about those that
are not moved by more places than a word of 128 bits has. -/
theorem mul_scaleBy_roundsUnlessVanishing (mode : Rounding) {a b : Extended}
    (ha : a.isFiniteNonzero = true) (hb : b.isFiniteNonzero = true) (n : Int) :
    (¬(keptProduct mode a b).Overshifts →
      RoundsUnlessVanishing mode (a.toRat * b.toRat) (mul mode a b)) ∧
    (¬(keptScaled mode a n).Overshifts →
      RoundsUnlessVanishing mode (a.toRat * 2 ^ n) (scaleBy mode a n)) := by
  refine ⟨fun hmove => ?_, scaleBy_roundsUnlessVanishing ha n⟩
  have hs := Nat.mul_ne_zero (significand_pos ha).ne' (significand_pos hb).ne'
  rw [mul_eq_roundTo ha hb, mul_toRat]
  exact roundTo_roundsUnlessVanishing hs (mul_significands_lt a b) hmove

/-- Half of the least number is rounded away from zero, and a number 200 binades below it
vanishes. -/
theorem mul_scaleBy_roundsUnlessVanishing_least :
    let least : Extended := ⟨true, 0, 1⟩
    let half : Extended := ⟨false, 0x3FFE, integerBit⟩
    least.isFiniteNonzero = true ∧ half.isFiniteNonzero = true ∧
      ¬(keptProduct .down least half).Overshifts ∧ ¬(keptScaled .down least (-200)).Overshifts ∧
      RoundsUnlessVanishing .down (least.toRat * half.toRat) (mul .down least half) ∧
      RoundsUnlessVanishing .down (least.toRat * 2 ^ (-200 : Int)) (scaleBy .down least (-200)) :=
  have hleast : isFiniteNonzero ⟨true, 0, 1⟩ = true := by decide
  have hhalf : isFiniteNonzero ⟨false, 0x3FFE, integerBit⟩ = true := by decide
  have hproduct : ¬(keptProduct .down ⟨true, 0, 1⟩ ⟨false, 0x3FFE, integerBit⟩).Overshifts := by
    decide +kernel
  have hscaled : ¬(keptScaled .down ⟨true, 0, 1⟩ (-200)).Overshifts := by decide +kernel
  have h := mul_scaleBy_roundsUnlessVanishing .down hleast hhalf (-200)
  ⟨hleast, hhalf, hproduct, hscaled, h.1 hproduct, h.2 hscaled⟩

/-- One is scaled down to zero, though rounding up would give the least number.  It is moved by no
more places than a word has. -/
theorem not_roundsTo_scaleBy_one :
    ¬(keptScaled .up one (-16600)).Overshifts ∧
      ¬RoundsTo .extended .up (one.toRat * 2 ^ (-16600 : Int)) (scaleBy .up one (-16600)) := by
  refine ⟨by decide +kernel, fun h => ?_⟩
  have hone : 0 < one.toRat := magnitude_pos (by decide)
  have hvalue : (scaleBy .up one (-16600)).value.isZero = true := by decide +kernel
  have haway := h.isZero_of_leadsAway (.inl ⟨rfl, mul_pos hone (Format.two_zpow_pos _)⟩)
  rw [hvalue] at haway
  exact absurd haway (by decide)

end Extended

/-! ## Quotients -/

theorem RoundsTo.sign_eq {f : Format} {mode : Rounding} {x : ℚ} {result : Rounded}
    (h : RoundsTo f mode x result) (hx : x ≠ 0) : result.value.sign = decide (x < 0) := by
  cases h with
  | inRange _ _ _ _ sign_eq => exact sign_eq hx
  | infinite => rfl
  | largest _ _ _ _ sign_eq => exact sign_eq

namespace Extended

variable {mode : Rounding} {a b x : Extended}

/-- A division that goes on with its remainder is a division of a longer dividend. -/
theorem quotient_eq (dividend : Nat) {divisor : Nat} (hpos : 0 < divisor) :
    quotient dividend divisor =
      orSticky (dividend <<< 72 / divisor) (dividend <<< 72 % divisor != 0) := by
  unfold quotient
  dsimp only
  have hlong : dividend <<< 72 =
      dividend <<< 64 % divisor * 2 ^ 8 + divisor * (dividend <<< 64 / divisor * 2 ^ 8) := by
    have hdiv := Nat.mod_add_div (dividend <<< 64) divisor
    calc dividend <<< 72 = dividend <<< 64 * 2 ^ 8 := by simp only [Nat.shiftLeft_eq]; ring
      _ = (dividend <<< 64 % divisor + divisor * (dividend <<< 64 / divisor)) * 2 ^ 8 := by
        rw [hdiv]
      _ = _ := by ring
  have hrest : dividend <<< 64 % divisor * 2 ^ 8 / divisor < 2 ^ 8 := by
    rw [Nat.div_lt_iff_lt_mul hpos, Nat.mul_comm]
    exact Nat.mul_lt_mul_of_pos_left (Nat.mod_lt _ hpos) (Nat.two_pow_pos 8)
  rw [hlong, Nat.add_mul_mod_self_left, Nat.add_mul_div_left _ _ hpos,
    Nat.shiftLeft_eq (dividend <<< 64 % divisor), show extraBits = 8 from rfl,
    ← Nat.shiftLeft_add_eq_or_of_lt hrest, Nat.shiftLeft_eq (dividend <<< 64 / divisor),
    Nat.add_comm]

theorem normalizedSignificand_pos (h : x.isFiniteNonzero = true) : 0 < x.normalizedSignificand :=
  (Nat.two_pow_pos 63).trans_le (le_normalizedSignificand h)

/-- The magnitude of a number, in terms of its normalized significand. -/
theorem normalizedSignificand_mul (x : Extended) :
    (x.normalizedSignificand : ℚ) * 2 ^ x.normalizedScale = x.significand.toNat * 2 ^ x.scale := by
  have hself := shiftLeft_normalizedSignificand_mul x le_rfl
  rwa [sub_self, Int.toNat_zero, Nat.shiftLeft_zero] at hself

/-- The scale at which a quotient is found. -/
def quotientScale (a b : Extended) : Int := a.leadingExponent - b.leadingExponent - (64 + extraBits)

theorem div_toRat (a b : Extended) : a.toRat / b.toRat =
    signed (a.sign != b.sign)
      (((a.normalizedSignificand <<< 72 : Nat) : ℚ) / b.normalizedSignificand *
        2 ^ quotientScale a b) := by
  have hscale : quotientScale a b = a.normalizedScale - b.normalizedScale - (72 : Nat) := by
    simp only [quotientScale, normalizedScale, extraBits]
    omega
  rw [toRat, toRat, signed_div_signed, ← normalizedSignificand_mul, ← normalizedSignificand_mul,
    hscale, zpow_sub₀ two_ne_zero, zpow_sub₀ two_ne_zero, zpow_natCast, Nat.shiftLeft_eq,
    Nat.cast_mul, Nat.cast_pow, Nat.cast_ofNat]
  congr 1
  field_simp

theorem div_eq_roundTo (ha : a.isFiniteNonzero = true) (hb : b.isFiniteNonzero = true) :
    div mode a b = roundTo .extended mode (a.sign != b.sign)
      (quotient a.normalizedSignificand b.normalizedSignificand) (quotientScale a b) := by
  obtain ⟨hna, hia, hza⟩ := isFiniteNonzero_iff.1 ha
  obtain ⟨hnb, hib, hzb⟩ := isFiniteNonzero_iff.1 hb
  rw [div, nanResult?_eq_none hna hnb, Option.getD_none, divNumbers]
  simp [hia, hib, hza, hzb, quotientScale]

/-- A quotient has more bits than are kept. -/
theorem quotient_bounds (ha : a.isFiniteNonzero = true) (hb : b.isFiniteNonzero = true) :
    2 ^ 71 ≤ quotient a.normalizedSignificand b.normalizedSignificand ∧
      quotient a.normalizedSignificand b.normalizedSignificand < 2 ^ 74 := by
  have hpos := normalizedSignificand_pos hb
  have hlow := le_normalizedSignificand ha
  have hhigh := normalizedSignificand_lt a
  have hlow' := le_normalizedSignificand hb
  have hhigh' := normalizedSignificand_lt b
  rw [quotient_eq _ hpos, Nat.shiftLeft_eq]
  constructor
  · refine le_trans ?_ (le_orSticky _ _)
    rw [Nat.le_div_iff_mul_le hpos]
    omega
  · refine (orSticky_le _ _).trans_lt ?_
    have hlt : a.normalizedSignificand * 2 ^ 72 / b.normalizedSignificand < 2 ^ 73 := by
      rw [Nat.div_lt_iff_lt_mul hpos]
      omega
    omega

/-- Quotients of finite numbers are rounded correctly when rounding to nearest or toward zero. -/
theorem div_roundsTo (hmode : mode = .nearest ∨ mode = .zero) (ha : a.isFiniteNonzero = true)
    (hb : b.isFiniteNonzero = true) :
    RoundsTo .extended mode (a.toRat / b.toRat) (div mode a b) ∧
      (div mode a b).value.sign = (a.sign != b.sign) := by
  have hpos := normalizedSignificand_pos hb
  obtain ⟨hlow, hhigh⟩ := quotient_bounds ha hb
  obtain ⟨hbelow, habove, hcut⟩ := natCast_div_bounds (a.normalizedSignificand <<< 72) hpos
  have hagree := agreeAt_orSticky (quotientScale a b) hbelow habove hcut
  rw [← quotient_eq _ hpos] at hagree
  have hs : quotient a.normalizedSignificand b.normalizedSignificand ≠ 0 := by omega
  have hlog := (Nat.le_log2 hs).2 hlow
  have hrounds : RoundsTo .extended mode (a.toRat / b.toRat) (div mode a b) := by
    rw [div_eq_roundTo ha hb, div_toRat]
    refine roundTo_roundsTo Format.extended_fitsRegisters hs (by omega) hagree ?_ (by omega)
      fun haway => ?_
    · -- Eight bits and the sticky bit are below the last place.
      simp only [lastPlace, Format.extended]
      omega
    · rcases haway with ⟨rfl, -⟩ | ⟨rfl, -⟩ <;> simp at hmode
  refine ⟨hrounds, ?_⟩
  rw [hrounds.sign_eq (div_ne_zero (toRat_ne_zero ha) (toRat_ne_zero hb)), toRat, toRat,
    signed_div_signed]
  exact (eq_decide_signed_neg _ (div_pos (magnitude_pos ha) (magnitude_pos hb))).symm

/-- The least number is divided by three, rounded to nearest. -/
theorem div_roundsTo_third :
    isFiniteNonzero ⟨true, 0, 1⟩ = true ∧
      isFiniteNonzero ⟨false, 0x4000, 0xC000000000000000⟩ = true ∧
      RoundsTo .extended .nearest
        (toRat ⟨true, 0, 1⟩ / toRat ⟨false, 0x4000, 0xC000000000000000⟩)
        (div .nearest ⟨true, 0, 1⟩ ⟨false, 0x4000, 0xC000000000000000⟩) ∧
      (div .nearest ⟨true, 0, 1⟩ ⟨false, 0x4000, 0xC000000000000000⟩).value.sign = true :=
  have hleast : isFiniteNonzero ⟨true, 0, 1⟩ = true := by decide
  have hthree : isFiniteNonzero ⟨false, 0x4000, 0xC000000000000000⟩ = true := by decide
  ⟨hleast, hthree, div_roundsTo (.inl rfl) hleast hthree⟩

end Extended

end Ia32
