import Mathlib.Algebra.Order.AbsoluteValue.Basic
import Mathlib.Algebra.Order.Field.Power
import Mathlib.Data.Rat.Cast.Order
import Mathlib.Tactic.Linarith
import Mathlib.Tactic.Ring
import Ia32.Float.Arith

/-!
# Correct rounding

What it means that a result is an exact value rounded once.  A format holds the
numbers `m * 2 ^ k` whose significand `m` fits its precision and whose exponent
`k` is not below a least one.  Its greatest exponent plays no part at first: a
number is rounded as if there were none (`Format.Rounds`), and overflows when
what comes out is too large (`RoundsTo`).

Exact values are taken from an ordered field, so that quotients and roots have
exact values too.

Between two numbers next to each other in a format (`Format.Consecutive`)
rounding is a choice of one of the two, which the half between them decides
(`LiesAt.rounds`).  A negative number is rounded like its opposite, in the
opposite direction (`Format.Rounds.neg`).  Numbers that lie alike among the
multiples of a power of two below the last place (`AgreeAt`) are rounded alike.
-/

namespace Ia32

variable {K : Type*} [Field K]

/-! ## Values -/

/-- A magnitude with a sign. -/
def signed (sign : Bool) (magnitude : K) : K := if sign then -magnitude else magnitude

namespace Extended

/-- Whether a number is zero or finite. -/
def IsFinite (x : Extended) : Prop := x.isZero = true ∨ x.isFiniteNonzero = true

instance (x : Extended) : Decidable x.IsFinite := inferInstanceAs (Decidable (_ ∨ _))

/-- The value of a finite number. -/
def toRat (x : Extended) : ℚ := signed x.sign (x.significand.toNat * 2 ^ x.scale)

end Extended

/-! ## Numbers of a format -/

namespace Format

/-- The exponent of the last place of the least numbers. -/
def leastPlace (f : Format) : Int := f.minExponent - (f.precision - 1)

/-- A number is one of a format without a greatest exponent. -/
def Holds (f : Format) (x : K) : Prop :=
  ∃ m k : Int, |m| < 2 ^ f.precision ∧ f.leastPlace ≤ k ∧ x = m * 2 ^ k

/-- A number of a format has an even significand. -/
def HoldsEven (f : Format) (x : K) : Prop :=
  ∃ m k : Int, Even m ∧ |m| < 2 ^ f.precision ∧ f.leastPlace ≤ k ∧ x = m * 2 ^ k

variable {f : Format} {x : K}

theorem Holds.neg (h : f.Holds x) : f.Holds (-x) := by
  obtain ⟨m, k, hm, hk, rfl⟩ := h
  exact ⟨-m, k, by rwa [abs_neg], hk, by push_cast; ring⟩

theorem HoldsEven.neg (h : f.HoldsEven x) : f.HoldsEven (-x) := by
  obtain ⟨m, k, he, hm, hk, rfl⟩ := h
  exact ⟨-m, k, he.neg, by rwa [abs_neg], hk, by push_cast; ring⟩

/-- A tie is broken in the same way for both signs. -/
theorem holdsEven_neg_iff : f.HoldsEven (-x) ↔ f.HoldsEven x :=
  ⟨fun h => neg_neg x ▸ h.neg, HoldsEven.neg⟩

theorem holds_natCast_mul {n : Nat} {place : Int} (hn : n < 2 ^ f.precision)
    (hplace : f.leastPlace ≤ place) : f.Holds ((n : K) * 2 ^ place) :=
  ⟨n, place, by rw [Nat.abs_cast]; exact_mod_cast hn, hplace, by rw [Int.cast_natCast]⟩

theorem holds_zero (f : Format) : f.Holds (0 : K) :=
  ⟨0, f.leastPlace, by simp, le_rfl, by simp⟩

theorem Holds.ratCast [CharZero K] {q : ℚ} (h : f.Holds q) : f.Holds (q : K) := by
  obtain ⟨m, k, hm, hk, rfl⟩ := h
  exact ⟨m, k, hm, hk, by push_cast; rfl⟩

end Format

/-! ## Rounding -/

variable [LinearOrder K]

namespace Format

/-- A number is rounded to another one, in a format without a greatest exponent. -/
def Rounds (f : Format) : Rounding → K → K → Prop
  | .nearest, x, r =>
    f.Holds r ∧ ∀ y, f.Holds y → y ≠ r →
      |x - r| < |x - y| ∨ |x - r| = |x - y| ∧ f.HoldsEven r
  | .down, x, r => IsGreatest {y | f.Holds y ∧ y ≤ x} r
  | .up, x, r => IsLeast {y | f.Holds y ∧ x ≤ y} r
  | .zero, x, r =>
    if 0 ≤ x then IsGreatest {y | f.Holds y ∧ y ≤ x} r else IsLeast {y | f.Holds y ∧ x ≤ y} r

/-- The least power of two above the numbers of a format. -/
def bound (f : Format) : K := 2 ^ (f.maxExponent + 1)

end Format

/-- A direction of rounding leads a number away from zero, if it is not held. -/
def Rounding.LeadsAway (mode : Rounding) (x : K) : Prop :=
  mode = .up ∧ 0 < x ∨ mode = .down ∧ x < 0

/-- The exceptions of a number `x` that is rounded to `r` and does not overflow. -/
def roundingExceptions (f : Format) (x r : K) : Word :=
  if r = x then 0
  else if |x| < 2 ^ f.minExponent then Exception.precision ||| Exception.underflow
  else Exception.precision

/-- A result is an exact value, rounded once to a format. -/
inductive RoundsTo (f : Format) (mode : Rounding) (x : K) : Rounded → Prop
  /-- The rounded value is in the range of the format. -/
  | inRange {r : K} {value : Extended}
      (rounds : f.Rounds mode x r)
      (bounded : |r| < f.bound)
      (finite : value.IsFinite)
      (toRat_eq : (value.toRat : K) = r)
      (sign_eq : x ≠ 0 → value.sign = decide (x < 0)) :
      RoundsTo f mode x ⟨value, roundingExceptions f x r⟩
  /-- It is beyond the range, and becomes infinite. -/
  | infinite {r : K}
      (rounds : f.Rounds mode x r)
      (unbounded : f.bound ≤ |r|)
      (away : mode = .nearest ∨ mode.LeadsAway x) :
      RoundsTo f mode x ⟨.infinity (x < 0), Exception.overflow ||| Exception.precision⟩
  /-- It is beyond the range, and becomes the largest number of the format. -/
  | largest {r : K} {value : Extended}
      (rounds : f.Rounds mode x r)
      (unbounded : f.bound ≤ |r|)
      (toward : ¬(mode = .nearest ∨ mode.LeadsAway x))
      (finite : value.IsFinite)
      (sign_eq : value.sign = decide (x < 0))
      (toRat_eq : |value.toRat| = (2 ^ f.precision - 1) * 2 ^ (f.maxExponent - f.precision + 1)) :
      RoundsTo f mode x ⟨value, Exception.overflow ||| Exception.precision⟩

/-! ## Consecutive numbers -/

namespace Format

variable {f : Format} {mode : Rounding} {x r a b : K}

/-- Two numbers of a format with no other one between them. -/
structure Consecutive (f : Format) (a b : K) : Prop where
  left : f.Holds a
  right : f.Holds b
  lt : a < b
  gap : ∀ y, f.Holds y → y ≤ a ∨ b ≤ y

namespace Consecutive

/-- Between two numbers that follow each other in a format, the lower one is the one to round
down to. -/
theorem isGreatest (h : f.Consecutive a b) (ha : a ≤ x) (hb : x < b) :
    IsGreatest {y | f.Holds y ∧ y ≤ x} a := by
  refine ⟨⟨h.left, ha⟩, fun y hy => ?_⟩
  rcases h.gap y hy.1 with hle | hle
  · exact hle
  · exact absurd (lt_of_le_of_lt hy.2 hb) hle.not_gt

/-- The upper one is the one to round up to. -/
theorem isLeast (h : f.Consecutive a b) (ha : a < x) (hb : x ≤ b) :
    IsLeast {y | f.Holds y ∧ x ≤ y} b := by
  refine ⟨⟨h.right, hb⟩, fun y hy => ?_⟩
  rcases h.gap y hy.1 with hle | hle
  · exact absurd (lt_of_lt_of_le ha hy.2) hle.not_gt
  · exact hle

end Consecutive

variable [IsStrictOrderedRing K]

namespace Consecutive

/-- The lower number is the nearest one when it is nearer than the upper one, or when it is even
and both are equally near. -/
theorem nearest_left (h : f.Consecutive a b) (ha : a ≤ x) (hle : x - a ≤ b - x)
    (heven : x - a = b - x → f.HoldsEven a) : f.Rounds .nearest x a := by
  refine ⟨h.left, fun y hy hne => ?_⟩
  rw [abs_of_nonneg (sub_nonneg.2 ha)]
  rcases h.gap y hy with hya | hby
  · have hlt : y < a := lt_of_le_of_ne hya hne
    left
    rw [abs_of_nonneg (by linarith)]
    linarith
  · have hxb : x ≤ b := by linarith [h.lt]
    rw [abs_sub_comm x y, abs_of_nonneg (by linarith)]
    rcases lt_or_eq_of_le (show x - a ≤ y - x by linarith) with hlt | heq
    · exact .inl hlt
    · exact .inr ⟨heq, heven (by linarith)⟩

/-- The same for the upper number. -/
theorem nearest_right (h : f.Consecutive a b) (hb : x ≤ b) (hle : b - x ≤ x - a)
    (heven : b - x = x - a → f.HoldsEven b) : f.Rounds .nearest x b := by
  refine ⟨h.right, fun y hy hne => ?_⟩
  rw [abs_sub_comm x b, abs_of_nonneg (sub_nonneg.2 hb)]
  rcases h.gap y hy with hya | hby
  · have hax : a ≤ x := by linarith [h.lt]
    rw [abs_of_nonneg (by linarith)]
    rcases lt_or_eq_of_le (show b - x ≤ x - y by linarith) with hlt | heq
    · exact .inl hlt
    · exact .inr ⟨heq, heven (by linarith)⟩
  · have hlt : b < y := lt_of_le_of_ne hby (Ne.symm hne)
    left
    rw [abs_sub_comm x y, abs_of_nonneg (by linarith)]
    linarith

end Consecutive

/-! ## Held numbers -/

omit [IsStrictOrderedRing K] in
theorem Holds.abs (h : f.Holds x) : f.Holds |x| := by
  rcases abs_choice x with heq | heq <;> rw [heq]
  · exact h
  · exact h.neg

omit [IsStrictOrderedRing K] in
theorem Rounds.holds (h : f.Rounds mode x r) : f.Holds r := by
  cases mode with
  | nearest => exact h.1
  | down => exact h.1.1
  | up => exact h.1.1
  | zero =>
    simp only [Rounds] at h
    split at h <;> exact h.1.1

/-- A held number rounds to nothing but itself. -/
theorem Rounds.eq_of_holds (h : f.Rounds mode x r) (hx : f.Holds x) : r = x := by
  have hdown (h : IsGreatest {y | f.Holds y ∧ y ≤ x} r) : r = x :=
    le_antisymm h.1.2 (h.2 ⟨hx, le_rfl⟩)
  have hup (h : IsLeast {y | f.Holds y ∧ x ≤ y} r) : r = x :=
    le_antisymm (h.2 ⟨hx, le_rfl⟩) h.1.2
  cases mode with
  | nearest =>
    by_contra hne
    have hpos : 0 < |x - r| := abs_pos.2 (sub_ne_zero.2 (Ne.symm hne))
    have hzero : |x - x| = 0 := by rw [sub_self, abs_zero]
    rcases h.2 x hx (Ne.symm hne) with hlt | ⟨heq, -⟩ <;> linarith
  | down => exact hdown h
  | up => exact hup h
  | zero =>
    simp only [Rounds] at h
    split at h
    · exact hdown h
    · exact hup h

/-- A number below a held one is not rounded beyond it. -/
theorem Rounds.le_of_holds (h : f.Rounds mode x r) (hb : f.Holds b) (hx : x ≤ b) : r ≤ b := by
  have hdown (h : IsGreatest {y | f.Holds y ∧ y ≤ x} r) : r ≤ b := h.1.2.trans hx
  have hup (h : IsLeast {y | f.Holds y ∧ x ≤ y} r) : r ≤ b := h.2 ⟨hb, hx⟩
  cases mode with
  | nearest =>
    by_contra hgt
    have hlt : b < r := not_le.1 hgt
    have hnear : |x - b| = b - x := by rw [abs_sub_comm, abs_of_nonneg (sub_nonneg.2 hx)]
    have hfar : |x - r| = r - x := by rw [abs_sub_comm, abs_of_nonneg (by linarith)]
    rcases h.2 b hb hlt.ne with hless | ⟨heq, -⟩ <;> linarith
  | down => exact hdown h
  | up => exact hup h
  | zero =>
    simp only [Rounds] at h
    split at h
    · exact hdown h
    · exact hup h

/-- A number of the format is rounded to itself in every direction. -/
theorem rounds_self (mode : Rounding) (hx : f.Holds x) : f.Rounds mode x x := by
  have hdown : IsGreatest {y | f.Holds y ∧ y ≤ x} x := ⟨⟨hx, le_rfl⟩, fun _ hy => hy.2⟩
  have hup : IsLeast {y | f.Holds y ∧ x ≤ y} x := ⟨⟨hx, le_rfl⟩, fun _ hy => hy.2⟩
  cases mode with
  | nearest =>
    refine ⟨hx, fun y _ hne => .inl ?_⟩
    rw [sub_self, abs_zero]
    exact abs_pos.2 (sub_ne_zero.2 (Ne.symm hne))
  | down => exact hdown
  | up => exact hup
  | zero =>
    simp only [Rounds]
    split
    · exact hdown
    · exact hup

end Format

/-! ## The opposite direction -/

/-- The direction that does to negative numbers what a direction does to positive ones. -/
def Rounding.opposite : Rounding → Rounding
  | .nearest => .nearest
  | .down => .up
  | .up => .down
  | .zero => .zero

@[simp] theorem Rounding.opposite_opposite (mode : Rounding) : mode.opposite.opposite = mode := by
  cases mode <;> rfl

namespace Format

variable [IsStrictOrderedRing K] {f : Format} {mode : Rounding} {x r : K}

/-- The sign exchanges the two directions. -/
theorem isLeast_neg (h : IsGreatest {y | f.Holds y ∧ y ≤ x} r) :
    IsLeast {y | f.Holds y ∧ -x ≤ y} (-r) := by
  refine ⟨⟨h.1.1.neg, neg_le_neg h.1.2⟩, fun y hy => ?_⟩
  have hle : -y ≤ r := h.2 ⟨hy.1.neg, neg_le.1 hy.2⟩
  exact neg_le.1 hle

theorem isGreatest_neg (h : IsLeast {y | f.Holds y ∧ x ≤ y} r) :
    IsGreatest {y | f.Holds y ∧ y ≤ -x} (-r) := by
  refine ⟨⟨h.1.1.neg, neg_le_neg h.1.2⟩, fun y hy => ?_⟩
  have hle : r ≤ -y := h.2 ⟨hy.1.neg, le_neg.1 hy.2⟩
  exact le_neg.1 hle

/-- A negative number is rounded like its opposite, in the opposite direction. -/
theorem Rounds.neg (h : f.Rounds mode x r) (hx : x ≠ 0) : f.Rounds mode.opposite (-x) (-r) := by
  cases mode with
  | nearest =>
    refine ⟨h.1.neg, fun y hy hne => ?_⟩
    have hdist (z : K) : |-x - z| = |x - -z| := by
      rw [← abs_neg]
      congr 1
      ring
    have hother : -y ≠ r := fun heq => hne (by rw [← heq, neg_neg])
    rw [hdist, hdist, neg_neg, holdsEven_neg_iff]
    exact h.2 (-y) hy.neg hother
  | down => exact isLeast_neg h
  | up => exact isGreatest_neg h
  | zero =>
    simp only [Rounds, Rounding.opposite] at h ⊢
    rcases lt_or_gt_of_ne hx with hneg | hpos
    · rw [if_neg hneg.not_ge] at h
      rw [if_pos (neg_nonneg.2 hneg.le)]
      exact isGreatest_neg h
    · rw [if_pos hpos.le] at h
      rw [if_neg (neg_neg_iff_pos.2 hpos).not_ge]
      exact isLeast_neg h

/-- A number above a held one is not rounded below it. -/
theorem Rounds.ge_of_holds {b : K} (h : f.Rounds mode x r) (hb : f.Holds b) (hx : b ≤ x) :
    b ≤ r := by
  rcases eq_or_ne x 0 with rfl | hne
  · rwa [h.eq_of_holds f.holds_zero]
  · have hneg := (h.neg hne).le_of_holds hb.neg (neg_le_neg hx)
    exact neg_le_neg_iff.1 hneg

/-! ## Multiples of the last place -/

theorem two_zpow_pos (k : Int) : (0 : K) < 2 ^ k := zpow_pos two_pos k

omit [LinearOrder K] [IsStrictOrderedRing K] in
theorem two_zpow_eq_half [NeZero (2 : K)] (place : Int) :
    (2 : K) ^ place = 2 * 2 ^ (place - 1) := by
  rw [← zpow_one_add₀ two_ne_zero]
  congr 1
  omega

/-- A multiple of a power of two is a multiple of every smaller one. -/
theorem exists_multiple {g k : Int} (h : g ≤ k) (m : Int) :
    ∃ j : Int, (m : K) * 2 ^ k = j * 2 ^ g := by
  refine ⟨m * 2 ^ (k - g).toNat, ?_⟩
  have hsplit : (2 : K) ^ k = 2 ^ (k - g).toNat * 2 ^ g := by
    rw [← zpow_natCast, ← zpow_add₀ two_ne_zero, Int.toNat_of_nonneg (by omega)]
    congr 1
    omega
  push_cast
  rw [hsplit, mul_assoc]

theorem holdsEven_natCast_mul {n : Nat} {place : Int} (he : Even n) (hn : n ≤ 2 ^ f.precision)
    (hp : 2 ≤ f.precision) (hplace : f.leastPlace ≤ place) :
    f.HoldsEven ((n : K) * 2 ^ place) := by
  rcases Nat.lt_or_eq_of_le hn with hlt | rfl
  · exact ⟨n, place, by exact_mod_cast he, by rw [Nat.abs_cast]; exact_mod_cast hlt, hplace,
      by rw [Int.cast_natCast]⟩
  · -- The significand has one bit too many, and ends in a zero.
    have hpow : (2 : Int) ^ f.precision = 2 ^ (f.precision - 1) * 2 := by
      rw [← pow_succ]
      congr 1
      omega
    have hpos : (0 : Int) < 2 ^ (f.precision - 1) := by positivity
    refine ⟨2 ^ (f.precision - 1), place + 1, ?_, ?_, by omega, ?_⟩
    · exact even_two.pow_of_ne_zero (by omega)
    · rw [abs_of_pos hpos, hpow]
      omega
    · have hcast : (2 : K) ^ f.precision = 2 ^ (f.precision - 1) * 2 := by exact_mod_cast hpow
      rw [zpow_add_one₀ two_ne_zero]
      push_cast
      rw [hcast]
      ring

/-- Multiples of the last place that follow each other are consecutive numbers: above the least
place the significand has all its bits, so that nothing finer lies between them. -/
theorem consecutive_mul {n : Nat} {place : Int} (hp : 1 ≤ f.precision)
    (hplace : f.leastPlace ≤ place) (hn : n < 2 ^ f.precision)
    (hfull : place = f.leastPlace ∨ 2 ^ (f.precision - 1) ≤ n) :
    f.Consecutive ((n : K) * 2 ^ place) ((n + 1 : Nat) * 2 ^ place) where
  left := holds_natCast_mul hn hplace
  right := by
    rcases Nat.lt_or_eq_of_le (Nat.succ_le_of_lt hn) with hlt | heq
    · exact holds_natCast_mul hlt hplace
    · refine ⟨1, place + f.precision, ?_, by omega, ?_⟩
      · rw [abs_one]
        exact one_lt_pow₀ (by norm_num) (by omega)
      · rw [show n + 1 = 2 ^ f.precision from heq, zpow_add₀ two_ne_zero, zpow_natCast]
        push_cast
        ring
  lt := by
    push_cast
    linarith [two_zpow_pos (K := K) place]
  gap := by
    rintro _ ⟨m, k, hm, hk, rfl⟩
    rcases le_or_gt place k with hle | hlt
    · -- The number is itself a multiple of the last place.
      obtain ⟨j, hj⟩ := exists_multiple (K := K) hle m
      rw [hj]
      rcases le_or_gt j n with hjn | hnj
      · exact .inl (mul_le_mul_of_nonneg_right (by exact_mod_cast hjn) (two_zpow_pos _).le)
      · refine .inr (mul_le_mul_of_nonneg_right ?_ (two_zpow_pos _).le)
        exact_mod_cast Int.add_one_le_of_lt hnj
    · -- It is finer, so it is below the numbers whose significand has all its bits.
      left
      have hbits : 2 ^ (f.precision - 1) ≤ n := hfull.resolve_left (by omega)
      have hhalf : (2 : K) ^ f.precision * 2 ^ k ≤ 2 ^ (f.precision - 1) * 2 ^ place := by
        simp only [← zpow_natCast]
        rw [← zpow_add₀ two_ne_zero, ← zpow_add₀ two_ne_zero]
        exact zpow_le_zpow_right₀ one_le_two (by omega)
      have hmle : (m : K) ≤ 2 ^ f.precision := by
        exact_mod_cast ((le_abs_self m).trans_lt hm).le
      calc (m : K) * 2 ^ k ≤ 2 ^ f.precision * 2 ^ k :=
            mul_le_mul_of_nonneg_right hmle (two_zpow_pos k).le
        _ ≤ 2 ^ (f.precision - 1) * 2 ^ place := hhalf
        _ ≤ n * 2 ^ place :=
            mul_le_mul_of_nonneg_right (by exact_mod_cast hbits) (two_zpow_pos place).le

end Format

/-! ## Halves -/

/-- Where a number lies among the multiples of `2 ^ place`: `n` of them fit, and the flags tell
about the rest, whether it reaches one half and whether there is more. -/
structure LiesAt (place : Int) (n : Nat) (half rest : Bool) (x : K) : Prop where
  le : ((2 * n + half.toNat : Nat) : K) * 2 ^ (place - 1) ≤ x
  lt : x < ((2 * n + half.toNat + 1 : Nat) : K) * 2 ^ (place - 1)
  rest_iff : rest = true ↔ ((2 * n + half.toNat : Nat) : K) * 2 ^ (place - 1) < x

namespace LiesAt

variable [IsStrictOrderedRing K] {f : Format} {mode : Rounding} {place : Int} {n : Nat}
  {half rest : Bool} {x : K}

theorem lower_le (h : LiesAt place n half rest x) : (n : K) * 2 ^ place ≤ x := by
  refine le_trans ?_ h.le
  rw [Format.two_zpow_eq_half place]
  push_cast
  nlinarith [Format.two_zpow_pos (K := K) (place - 1), Nat.cast_nonneg (α := K) half.toNat]

theorem lt_upper (h : LiesAt place n half rest x) : x < ((n + 1 : Nat) : K) * 2 ^ place := by
  refine lt_of_lt_of_le h.lt ?_
  have hhalf : ((half.toNat : Nat) : K) ≤ 1 := by exact_mod_cast Bool.toNat_le half
  rw [Format.two_zpow_eq_half place]
  push_cast
  nlinarith [Format.two_zpow_pos (K := K) (place - 1)]

/-- A number is a multiple when nothing is left. -/
theorem eq_lower (h : LiesAt place n false false x) : x = (n : K) * 2 ^ place := by
  have hnot : ¬((2 * n + false.toNat : Nat) : K) * 2 ^ (place - 1) < x := fun hlt =>
    nomatch h.rest_iff.2 hlt
  rw [le_antisymm (not_lt.1 hnot) h.le, Format.two_zpow_eq_half place]
  simp only [Bool.toNat_false, Nat.add_zero]
  push_cast
  ring

/-- A number is above a multiple when something is left. -/
theorem lower_lt (h : LiesAt place n half rest x) (hrest : (half || rest) = true) :
    (n : K) * 2 ^ place < x := by
  refine lt_of_le_of_ne h.lower_le fun heq => ?_
  have hpos := Format.two_zpow_pos (K := K) (place - 1)
  have hle := h.le
  have hiff := h.rest_iff
  rw [← heq, Format.two_zpow_eq_half place] at hle hiff
  push_cast at hle hiff
  cases half with
  | true =>
    simp only [Bool.toNat_true, Nat.cast_one] at hle
    nlinarith
  | false =>
    simp only [Bool.false_or] at hrest
    have hlt := hiff.1 hrest
    simp only [Bool.toNat_false, Nat.cast_zero] at hlt
    linarith

/-- The multiple to which a number is rounded. -/
def chosen (mode : Rounding) (n : Nat) (half rest : Bool) : Nat :=
  if mode.awayFromZero false (n % 2 == 1) half rest then n + 1 else n

theorem rounds_nearest (h : LiesAt place n half rest x) (hp : 2 ≤ f.precision)
    (hplace : f.leastPlace ≤ place) (hn : n < 2 ^ f.precision)
    (hc : f.Consecutive ((n : K) * 2 ^ place) ((n + 1 : Nat) * 2 ^ place)) :
    f.Rounds .nearest x ((chosen .nearest n half rest : K) * 2 ^ place) := by
  have hlow := h.lower_le
  have hhigh := h.lt_upper.le
  obtain ⟨hle, hlt, hrest⟩ := h
  have hu := Format.two_zpow_eq_half (K := K) place
  have hn' : ((n + 1 : Nat) : K) * 2 ^ place = n * 2 ^ place + 2 * 2 ^ (place - 1) := by
    rw [hu]; push_cast; ring
  have hmid : (n : K) * 2 ^ place = 2 * n * 2 ^ (place - 1) := by rw [hu]; ring
  push_cast at hle hlt hrest
  cases half with
  | false =>
    -- Below the middle.
    simp only [Bool.toNat_false, Nat.cast_zero, add_zero] at hlt
    have hbelow : x - n * 2 ^ place < (n + 1 : Nat) * 2 ^ place - x := by
      rw [hn', hmid]; linarith
    exact hc.nearest_left hlow hbelow.le fun heq => absurd heq hbelow.ne
  | true =>
    simp only [Bool.toNat_true, Nat.cast_one] at hle hrest
    cases rest with
    | true =>
      -- Above the middle.
      have hgt := hrest.1 rfl
      have habove : (n + 1 : Nat) * 2 ^ place - x < x - n * 2 ^ place := by
        rw [hn', hmid]; linarith
      exact hc.nearest_right hhigh habove.le fun heq => absurd heq habove.ne
    | false =>
      -- In the middle: the even one of the two.
      have hnot : ¬(2 * (n : K) + 1) * 2 ^ (place - 1) < x := fun hgt => nomatch hrest.2 hgt
      have heq : x = (2 * (n : K) + 1) * 2 ^ (place - 1) := le_antisymm (not_lt.1 hnot) hle
      have htie : x - n * 2 ^ place = (n + 1 : Nat) * 2 ^ place - x := by
        rw [hn', hmid, heq]; ring
      rcases Nat.even_or_odd n with heven | hodd
      · have hmod : n % 2 = 0 := Nat.even_iff.1 heven
        simp only [chosen, Rounding.awayFromZero, hmod]
        exact hc.nearest_left hlow htie.le fun _ =>
          Format.holdsEven_natCast_mul heven hn.le hp hplace
      · have hmod : n % 2 = 1 := Nat.odd_iff.1 hodd
        simp only [chosen, Rounding.awayFromZero, hmod]
        exact hc.nearest_right hhigh htie.ge fun _ =>
          Format.holdsEven_natCast_mul hodd.add_one hn hp hplace

/-- Rounding goes to the multiple below a number or to the one above. -/
theorem rounds (h : LiesAt place n half rest x) (hp : 2 ≤ f.precision)
    (hplace : f.leastPlace ≤ place) (hn : n < 2 ^ f.precision)
    (hfull : place = f.leastPlace ∨ 2 ^ (f.precision - 1) ≤ n) :
    f.Rounds mode x ((chosen mode n half rest : K) * 2 ^ place) := by
  have hc := Format.consecutive_mul (K := K) (by omega) hplace hn hfull
  cases mode with
  | nearest => exact h.rounds_nearest hp hplace hn hc
  | down => exact hc.isGreatest h.lower_le h.lt_upper
  | zero =>
    have hnonneg : 0 ≤ x :=
      le_trans (mul_nonneg (Nat.cast_nonneg n) (Format.two_zpow_pos place).le) h.lower_le
    simp only [Format.Rounds, if_pos hnonneg]
    exact hc.isGreatest h.lower_le h.lt_upper
  | up =>
    cases hany : half || rest with
    | true =>
      simp only [chosen, Rounding.awayFromZero, hany]
      exact hc.isLeast (h.lower_lt hany) h.lt_upper.le
    | false =>
      obtain ⟨rfl, rfl⟩ := Bool.or_eq_false_iff.1 hany
      rw [h.eq_lower]
      exact Format.rounds_self .up hc.left

theorem chosen_le (mode : Rounding) (n : Nat) (half rest : Bool) :
    chosen mode n half rest ≤ n + 1 := by
  unfold chosen
  split <;> omega

/-- The multiple to which a number is rounded differs from it when something is left. -/
theorem chosen_ne_iff (h : LiesAt place n half rest x) (mode : Rounding) :
    (chosen mode n half rest : K) * 2 ^ place ≠ x ↔ (half || rest) = true := by
  constructor
  · intro hne
    by_contra hnone
    obtain ⟨rfl, rfl⟩ := Bool.or_eq_false_iff.1 (Bool.eq_false_iff.2 hnone)
    have hchosen : chosen mode n false false = n := by cases mode <;> rfl
    rw [hchosen] at hne
    exact hne h.eq_lower.symm
  · intro hany
    unfold chosen
    split
    · exact h.lt_upper.ne'
    · exact (h.lower_lt hany).ne

end LiesAt

/-! ## Numbers that lie alike -/

/-- Two numbers lie alike among the multiples of a power of two. -/
def AgreeAt (g : Int) (x y : K) : Prop :=
  ∀ j : Int, (x < j * 2 ^ g ↔ y < j * 2 ^ g) ∧ (j * 2 ^ g < x ↔ j * 2 ^ g < y)

namespace AgreeAt

variable {g : Int} {x y : K}

/-- What is not cut off agrees with itself at every place. -/
theorem refl (g : Int) (x : K) : AgreeAt g x x := fun _ => ⟨Iff.rfl, Iff.rfl⟩

theorem le_iff (h : AgreeAt g x y) (j : Int) : j * 2 ^ g ≤ x ↔ j * 2 ^ g ≤ y := by
  rw [← not_lt, ← not_lt, (h j).1]

/-- A multiple lies alike with nothing but itself. -/
theorem eq_of_multiple (h : AgreeAt g x y) {j : Int} (hy : y = j * 2 ^ g) : x = y := by
  apply le_antisymm
  · rw [hy]
    exact not_lt.1 fun hlt => (((h j).2.1 hlt).trans_eq hy).false
  · rw [hy]
    exact (h.le_iff j).2 hy.ge

/-- Where a number lies between two last places, and whether it is nearer to one of them, is
told by comparisons with multiples of half a place. -/
theorem liesAt {place : Int} {n : Nat} {half rest : Bool} (h : AgreeAt (place - 1) x y)
    (hy : LiesAt place n half rest y) : LiesAt place n half rest x := by
  obtain ⟨hle, hlt, hrest⟩ := hy
  have hlow := h.le_iff (2 * n + half.toNat : Nat)
  have hmid := (h (2 * n + half.toNat : Nat)).2
  have hhigh := (h (2 * n + half.toNat + 1 : Nat)).1
  rw [Int.cast_natCast] at hlow hmid hhigh
  exact ⟨hlow.2 hle, hhigh.2 hlt, hrest.trans hmid.symm⟩

theorem mono [IsStrictOrderedRing K] {k : Int} (h : AgreeAt g x y) (hle : g ≤ k) :
    AgreeAt k x y := by
  intro j
  obtain ⟨i, hi⟩ := Format.exists_multiple (K := K) hle j
  rw [hi]
  exact h i

end AgreeAt

end Ia32
