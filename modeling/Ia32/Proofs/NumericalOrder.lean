import Mathlib.Order.Compare
import Mathlib.Order.WithBot
import Ia32.Float.Compare
import Ia32.Proofs.RoundedArithmetic

/-!
# The numerical order

A number that is no NaN has a place on a line: the rationals, with an end on
either side for the infinities (`Extended.place`).  A comparison looks at the signs
and at keys of the magnitudes, which have the exponent field above the significand.
This is a comparison of keys with signs (`Extended.compare_eq_cmp_orderKey`).

This works because a larger field stands for a larger exponent, and because the
significand then has its top bit.  It fails where the fields zero and one meet.
They stand for the same exponent, and a number with the field zero may have its
top bit too.  Such a number can be as large as one with the field one, and its
key is smaller nevertheless (`Extended.Misplaced`).  This is the only way to fail
(`Extended.compare_order`).
-/

namespace Ia32

theorem Relation.ofOrdering_injective : Function.Injective ofOrdering := by
  intro o o' h
  cases o <;> cases o' <;> cases h <;> rfl

theorem cmp_neg_neg {α : Type*} [AddCommGroup α] [LinearOrder α] [IsOrderedAddMonoid α] (x y : α) :
    cmp (-x) (-y) = cmp y x := by
  simp only [cmp, cmpUsing, neg_lt_neg_iff]

namespace Extended

/-- The place of a number on the line.  The infinities are its ends. -/
def place (x : Extended) : WithBot (WithTop ℚ) :=
  if x.isInfinite then if x.sign then ⊥ else ⊤ else ((x.toRat : WithTop ℚ) : WithBot (WithTop ℚ))

/-- The magnitude of a number. -/
def magnitude (x : Extended) : ℚ := x.significand.toNat * 2 ^ x.scale

/-- A number with the exponent field zero is as large in magnitude as one of its sign with the
field one. -/
structure Misplaced (a b : Extended) : Prop where
  sign_eq : a.sign = b.sign
  exponent_left : a.exponent = 0
  exponent_right : b.exponent = 1
  le : b.significand ≤ a.significand

instance (a b : Extended) : Decidable (a.Misplaced b) :=
  decidable_of_iff
    (a.sign = b.sign ∧ a.exponent = 0 ∧ b.exponent = 1 ∧ b.significand ≤ a.significand)
    ⟨fun h => ⟨h.1, h.2.1, h.2.2.1, h.2.2.2⟩,
      fun h => ⟨h.sign_eq, h.exponent_left, h.exponent_right, h.le⟩⟩

variable {a b x : Extended}

/-! ## Magnitudes and keys -/

theorem toRat_eq_signed (x : Extended) : x.toRat = signed x.sign x.magnitude := rfl

theorem magnitude_nonneg (x : Extended) : 0 ≤ x.magnitude := by
  unfold magnitude
  positivity

/-- A number that orders all numbers but NaNs. -/
def orderKey (x : Extended) : Int :=
  if x.sign then -(x.magnitudeKey : Int) else x.magnitudeKey

theorem magnitudeKey_eq (x : Extended) :
    x.magnitudeKey = x.exponent.toNat * 2 ^ 64 + x.significand.toNat := by
  unfold magnitudeKey
  split
  next hzero =>
    rw [isZero, Bool.and_eq_true_iff] at hzero
    rw [eq_of_beq hzero.1, eq_of_beq hzero.2]
    rfl
  next => rw [← Nat.shiftLeft_add_eq_or_of_lt x.significand.isLt, Nat.shiftLeft_eq]

theorem magnitudeKey_eq_zero_iff : x.magnitudeKey = 0 ↔ x.isZero = true := by
  have hexponent : x.exponent = 0 ↔ x.exponent.toNat = 0 := BitVec.toNat_inj.symm
  have hsignificand : x.significand = 0 ↔ x.significand.toNat = 0 := BitVec.toNat_inj.symm
  rw [magnitudeKey_eq, isZero, Bool.and_eq_true_iff, beq_iff_eq, beq_iff_eq, hexponent,
    hsignificand]
  omega

/-- Of two numbers with different fields the one with the larger field is larger, unless the other
one is misplaced. -/
theorem magnitude_lt_of_exponent_lt (hb : b.isNan = false) (h : a.exponent < b.exponent)
    (hfit : a.exponent = 0 → b.exponent = 1 → a.significand < b.significand) :
    a.magnitude < b.magnitude := by
  have hpos := Format.two_zpow_pos (K := ℚ)
  have hlt : a.exponent.toNat < b.exponent.toNat := h
  have hne : b.exponent ≠ 0 := by
    rintro heq
    simp [heq] at hlt
  have htop := le_significand_of_not_isNan hb hne
  have hscale := scale_of_exponent_ne_zero hne
  unfold magnitude
  by_cases hsame : a.exponent = 0 ∧ b.exponent = 1
  · -- The two fields stand for the same exponent.
    obtain ⟨hzero, hone⟩ := hsame
    rw [scale_of_exponent_eq_zero hzero, hscale, hone]
    refine mul_lt_mul_of_pos_right ?_ (hpos _)
    exact_mod_cast hfit hzero hone
  · have hnext : a.scale + 1 ≤ b.scale := by
      rcases eq_or_ne a.exponent 0 with hzero | hzero
      · have hone : b.exponent.toNat ≠ 1 := fun h => hsame ⟨hzero, BitVec.eq_of_toNat_eq h⟩
        rw [scale_of_exponent_eq_zero hzero, hscale]
        omega
      · rw [scale_of_exponent_ne_zero hzero, hscale]
        omega
    calc (a.significand.toNat : ℚ) * 2 ^ a.scale
      _ < 2 ^ 64 * 2 ^ a.scale :=
        mul_lt_mul_of_pos_right (by exact_mod_cast a.significand.isLt) (hpos _)
      _ = 2 ^ 63 * 2 ^ (a.scale + 1) := by
        rw [zpow_add_one₀ two_ne_zero]
        ring
      _ ≤ 2 ^ 63 * 2 ^ b.scale :=
        mul_le_mul_of_nonneg_left (zpow_le_zpow_right₀ one_le_two hnext) (by positivity)
      _ ≤ b.significand.toNat * 2 ^ b.scale :=
        mul_le_mul_of_nonneg_right (by exact_mod_cast htop) (hpos _).le

theorem magnitudeKey_lt_of_exponent_lt (h : a.exponent < b.exponent) :
    a.magnitudeKey < b.magnitudeKey := by
  have hlt : a.exponent.toNat < b.exponent.toNat := h
  have hsig := a.significand.isLt
  rw [magnitudeKey_eq, magnitudeKey_eq]
  omega

theorem cmp_magnitude_of_exponent_eq (h : a.exponent = b.exponent) :
    cmp a.magnitude b.magnitude = cmp a.magnitudeKey b.magnitudeKey := by
  have hscale : a.scale = b.scale := by rw [scale, scale, topExponent, topExponent, h]
  have hpos := Format.two_zpow_pos (K := ℚ) b.scale
  rw [magnitudeKey_eq, magnitudeKey_eq, h, cmp_add_left, magnitude, magnitude, hscale,
    cmp_mul_pos_right hpos]
  exact Nat.strictMono_cast.cmp_map_eq _ _

/-- The keys order the magnitudes, when neither number is misplaced. -/
theorem cmp_magnitude (ha : a.isNan = false) (hb : b.isNan = false) (hsign : a.sign = b.sign)
    (hab : ¬a.Misplaced b) (hba : ¬b.Misplaced a) :
    cmp a.magnitude b.magnitude = cmp a.magnitudeKey b.magnitudeKey := by
  rcases BitVec.lt_trichotomy a.exponent b.exponent with hlt | heq | hgt
  · have hfit (hzero : a.exponent = 0) (hone : b.exponent = 1) : a.significand < b.significand :=
      BitVec.not_le.1 fun hle => hab ⟨hsign, hzero, hone, hle⟩
    rw [(cmp_eq_lt_iff _ _).2 (magnitude_lt_of_exponent_lt hb hlt hfit),
      (cmp_eq_lt_iff _ _).2 (magnitudeKey_lt_of_exponent_lt hlt)]
  · exact cmp_magnitude_of_exponent_eq heq
  · have hfit (hzero : b.exponent = 0) (hone : a.exponent = 1) : b.significand < a.significand :=
      BitVec.not_le.1 fun hle => hba ⟨hsign.symm, hzero, hone, hle⟩
    rw [(cmp_eq_gt_iff _ _).2 (magnitude_lt_of_exponent_lt ha hgt hfit),
      (cmp_eq_gt_iff _ _).2 (magnitudeKey_lt_of_exponent_lt hgt)]

theorem magnitude_eq_zero_iff (h : x.isNan = false) : x.magnitude = 0 ↔ x.magnitudeKey = 0 := by
  have hpos := (Format.two_zpow_pos (K := ℚ) x.scale).ne'
  rw [magnitudeKey_eq, magnitude, mul_eq_zero, or_iff_left hpos, Nat.cast_eq_zero]
  constructor
  · intro hsig
    have hexponent : x.exponent = 0 := by
      by_contra hne
      have := le_significand_of_not_isNan h hne
      omega
    simp [hexponent, hsig]
  · omega

/-! ## Signs -/

/-- The value and the key of a number without its sign. -/
theorem toRat_of_sign_eq_false (h : x.sign = false) : x.toRat = x.magnitude := by
  rw [toRat_eq_signed, signed, h, if_neg Bool.false_ne_true]

theorem orderKey_of_sign_eq_false (h : x.sign = false) : x.orderKey = x.magnitudeKey := by
  rw [orderKey, h, if_neg Bool.false_ne_true]

/-- The value and the key of a number with its sign. -/
theorem toRat_of_sign_eq_true (h : x.sign = true) : x.toRat = -x.magnitude := by
  rw [toRat_eq_signed, signed, h, if_pos rfl]

theorem orderKey_of_sign_eq_true (h : x.sign = true) : x.orderKey = -x.magnitudeKey := by
  rw [orderKey, h, if_pos rfl]

/-- A number without its sign is not below one with a sign, and is above it unless both are
zero. -/
theorem cmp_toRat_of_signs (ha : a.isNan = false) (hb : b.isNan = false) (hsa : a.sign = false)
    (hsb : b.sign = true) : cmp a.toRat b.toRat = cmp a.orderKey b.orderKey := by
  have hza := magnitude_eq_zero_iff ha
  have hzb := magnitude_eq_zero_iff hb
  have hma := magnitude_nonneg a
  have hmb := magnitude_nonneg b
  rw [toRat_of_sign_eq_false hsa, toRat_of_sign_eq_true hsb, orderKey_of_sign_eq_false hsa,
    orderKey_of_sign_eq_true hsb]
  by_cases hzero : a.magnitudeKey = 0 ∧ b.magnitudeKey = 0
  · rw [hza.2 hzero.1, hzb.2 hzero.2, hzero.1, hzero.2, Nat.cast_zero, neg_zero, neg_zero,
      cmp_self_eq_eq, cmp_self_eq_eq]
  · have hlt : -b.magnitude < a.magnitude := by
      by_contra hle
      exact hzero ⟨hza.1 (by linarith), hzb.1 (by linarith)⟩
    rw [(cmp_eq_gt_iff _ _).2 hlt, (cmp_eq_gt_iff _ _).2 (by omega)]

/-- The keys order the values, when neither number is misplaced. -/
theorem cmp_toRat (ha : a.isNan = false) (hb : b.isNan = false) (hab : ¬a.Misplaced b)
    (hba : ¬b.Misplaced a) : cmp a.toRat b.toRat = cmp a.orderKey b.orderKey := by
  cases hsa : a.sign <;> cases hsb : b.sign
  case false.false =>
    rw [toRat_of_sign_eq_false hsa, toRat_of_sign_eq_false hsb, orderKey_of_sign_eq_false hsa,
      orderKey_of_sign_eq_false hsb, cmp_magnitude ha hb (hsa.trans hsb.symm) hab hba]
    exact (Nat.strictMono_cast.cmp_map_eq _ _).symm
  case false.true => exact cmp_toRat_of_signs ha hb hsa hsb
  case true.false => exact cmp_eq_cmp_symm.2 (cmp_toRat_of_signs hb ha hsb hsa)
  case true.true =>
    rw [toRat_of_sign_eq_true hsa, toRat_of_sign_eq_true hsb, orderKey_of_sign_eq_true hsa,
      orderKey_of_sign_eq_true hsb, cmp_neg_neg, cmp_neg_neg,
      cmp_magnitude hb ha (hsb.trans hsa.symm) hba hab]
    exact (Nat.strictMono_cast.cmp_map_eq _ _).symm

/-! ## Places -/

theorem place_of_not_isInfinite (h : x.isInfinite = false) :
    x.place = ((x.toRat : WithTop ℚ) : WithBot (WithTop ℚ)) := by
  rw [place, h, if_neg Bool.false_ne_true]

theorem place_infinity (sign : Bool) : (infinity sign).place = if sign then ⊥ else ⊤ := by
  cases sign <;> rfl

theorem eq_infinity_of_isInfinite (h : x.isInfinite = true) : x = infinity x.sign := by
  have hclass : x.classify = .infinity := eq_of_beq h
  unfold classify at hclass
  dsimp only at hclass
  split_ifs at hclass with hexponent hbit hsig
  have htop : 2 ^ 63 ≤ x.significand.toNat := by
    rw [← and_integerBit_ne_zero_iff]
    simpa using hbit
  have hshift : x.significand.toNat <<< 1 % 2 ^ 64 = 0 := by
    have := congrArg BitVec.toNat hsig
    rwa [BitVec.toNat_shiftLeft] at this
  have hlt := x.significand.isLt
  have hsig : x.significand = integerBit := by
    apply BitVec.eq_of_toNat_eq
    rw [Nat.shiftLeft_eq] at hshift
    change x.significand.toNat = 2 ^ 63
    omega
  rw [infinity, ← hexponent, ← hsig]

/-- The fields of an infinity, read like those of a finite number, give the bound of all that can
be encoded. -/
theorem toRat_infinity (sign : Bool) :
    (infinity sign).toRat = signed sign Format.extended.bound := by
  have hscale : (infinity sign).scale = 16321 := by cases sign <;> decide
  have hsig : ((infinity sign).significand.toNat : ℚ) = 2 ^ (63 : Int) := by
    have htop : (infinity sign).significand.toNat = 2 ^ 63 := rfl
    rw [htop]
    norm_num
  rw [toRat, hscale, hsig, ← zpow_add₀ two_ne_zero]
  rfl

/-- An infinity is above or below everything else that can be encoded. -/
theorem cmp_place_infinity (sign : Bool) (hb : b.isNan = false) (henc : b.HasEncoding) :
    cmp (infinity sign).place b.place = cmp (infinity sign).toRat b.toRat := by
  have hbound : (0 : ℚ) < Format.extended.bound := Format.two_zpow_pos _
  have hlt : -Format.extended.bound < (Format.extended.bound : ℚ) := by linarith
  cases hib : b.isInfinite with
  | true =>
    rw [eq_infinity_of_isInfinite hib]
    rw [place_infinity, place_infinity, toRat_infinity, toRat_infinity]
    cases sign <;> cases b.sign
    case false.false => rw [cmp_self_eq_eq, cmp_self_eq_eq]
    case false.true =>
      exact ((cmp_eq_gt_iff _ _).2 bot_lt_top).trans ((cmp_eq_gt_iff _ _).2 hlt).symm
    case true.false =>
      exact ((cmp_eq_lt_iff _ _).2 bot_lt_top).trans ((cmp_eq_lt_iff _ _).2 hlt).symm
    case true.true => rw [cmp_self_eq_eq, cmp_self_eq_eq]
  | false =>
    have hinside := abs_lt.1 (abs_toRat_lt_bound (isFinite_iff.2 ⟨hb, hib⟩) henc)
    rw [place_of_not_isInfinite hib, place_infinity, toRat_infinity]
    cases sign with
    | true =>
      exact ((cmp_eq_lt_iff _ _).2 (WithBot.bot_lt_coe _)).trans
        ((cmp_eq_lt_iff _ _).2 hinside.1).symm
    | false =>
      exact ((cmp_eq_gt_iff _ _).2 (WithBot.coe_lt_coe.2 (WithTop.coe_lt_top _))).trans
        ((cmp_eq_gt_iff _ _).2 hinside.2).symm

/-- Places are ordered like values, where the infinities have the values of their fields. -/
theorem cmp_place (ha : a.isNan = false) (hb : b.isNan = false)
    (henc : a.isInfinite = true ∨ b.isInfinite = true → a.HasEncoding ∧ b.HasEncoding) :
    cmp a.place b.place = cmp a.toRat b.toRat := by
  cases hia : a.isInfinite with
  | true =>
    rw [eq_infinity_of_isInfinite hia]
    exact cmp_place_infinity a.sign hb (henc (.inl hia)).2
  | false =>
    cases hib : b.isInfinite with
    | true =>
      rw [eq_infinity_of_isInfinite hib, cmp_eq_cmp_symm]
      exact cmp_place_infinity b.sign ha (henc (.inr hib)).1
    | false =>
      rw [place_of_not_isInfinite hia, place_of_not_isInfinite hib,
        WithBot.coe_strictMono.cmp_map_eq, WithTop.coe_strictMono.cmp_map_eq]

/-! ## Comparisons -/

theorem compare_eq_unordered_iff : compare a b = .unordered ↔ a.isNan = true ∨ b.isNan = true := by
  have hordered (o : Ordering) : Relation.ofOrdering o ≠ .unordered := by cases o <;> nofun
  unfold compare
  dsimp only
  split_ifs with hnan <;> simp_all

/-- The sign of a zero does not count. -/
theorem orderKey_eq (x : Extended) :
    x.orderKey = if x.sign && !x.isZero then -(x.magnitudeKey : Int) else x.magnitudeKey := by
  rw [orderKey]
  cases hzero : x.isZero with
  | false => simp
  | true => simp [magnitudeKey_eq_zero_iff.2 hzero]

theorem orderKey_of_isZero {x : Extended} (h : x.isZero = true) : x.orderKey = 0 := by
  rw [orderKey_eq, magnitudeKey_eq_zero_iff.2 h]
  simp

/-- Signs and magnitudes compare like keys with signs. -/
theorem compare_eq_cmp_orderKey (ha : a.isNan = false) (hb : b.isNan = false) :
    compare a b = .ofOrdering (cmp a.orderKey b.orderKey) := by
  have hpos {x : Extended} (hx : (x.sign && !x.isZero) = true) : 0 < x.magnitudeKey := by
    rw [Bool.and_eq_true_iff, Bool.not_eq_true'] at hx
    exact Nat.pos_of_ne_zero fun hkey => by simp [magnitudeKey_eq_zero_iff.1 hkey] at hx
  rw [compare, ha, hb, Bool.or_false, if_neg Bool.false_ne_true]
  by_cases hzero : (a.isZero && b.isZero) = true
  · rw [if_pos hzero]
    rw [Bool.and_eq_true_iff] at hzero
    rw [orderKey_of_isZero hzero.1, orderKey_of_isZero hzero.2, cmp_self_eq_eq]
    rfl
  · rw [if_neg hzero]
    dsimp only
    rw [orderKey_eq, orderKey_eq, ← cmp_eq_compare]
    cases hna : a.sign && !a.isZero <;> cases hnb : b.sign && !b.isZero
    case false.false =>
      exact congrArg Relation.ofOrdering (Nat.strictMono_cast.cmp_map_eq _ _).symm
    case false.true =>
      have hlt : -(b.magnitudeKey : Int) < a.magnitudeKey := by
        have := hpos hnb
        omega
      exact congrArg Relation.ofOrdering ((cmp_eq_gt_iff _ _).2 hlt).symm
    case true.false =>
      have hlt : -(a.magnitudeKey : Int) < b.magnitudeKey := by
        have := hpos hna
        omega
      exact congrArg Relation.ofOrdering ((cmp_eq_lt_iff _ _).2 hlt).symm
    case true.true =>
      refine congrArg Relation.ofOrdering ?_
      rw [if_pos rfl, if_pos rfl, if_pos rfl, cmp_neg_neg, cmp_swap]
      exact (Nat.strictMono_cast.cmp_map_eq _ _).symm

namespace Misplaced

theorem magnitude_le (h : a.Misplaced b) : b.magnitude ≤ a.magnitude := by
  have hone : b.exponent ≠ 0 := by
    rw [h.exponent_right]
    decide
  have hscale : b.scale = a.scale := by
    rw [scale_of_exponent_eq_zero h.exponent_left, scale_of_exponent_ne_zero hone, h.exponent_right]
    rfl
  rw [magnitude, magnitude, hscale]
  refine mul_le_mul_of_nonneg_right ?_ (Format.two_zpow_pos _).le
  exact_mod_cast BitVec.le_def.1 h.le

theorem magnitudeKey_lt (h : a.Misplaced b) : a.magnitudeKey < b.magnitudeKey := by
  apply magnitudeKey_lt_of_exponent_lt
  rw [h.exponent_left, h.exponent_right]
  decide

/-- A misplaced number is told to be nearer to zero, and is not. -/
theorem cmp_orderKey (h : a.Misplaced b) :
    cmp a.orderKey b.orderKey = (if a.sign then .gt else .lt) ∧
      cmp a.toRat b.toRat ≠ (if a.sign then .gt else .lt) := by
  have hkey := h.magnitudeKey_lt
  have hle := h.magnitude_le
  have hsb := h.sign_eq.symm
  cases hsa : a.sign with
  | true =>
    rw [hsa] at hsb
    rw [toRat_of_sign_eq_true hsa, toRat_of_sign_eq_true hsb, orderKey_of_sign_eq_true hsa,
      orderKey_of_sign_eq_true hsb, if_pos rfl]
    refine ⟨(cmp_eq_gt_iff _ _).2 (by omega), fun heq => ?_⟩
    have := (cmp_eq_gt_iff _ _).1 heq
    linarith
  | false =>
    rw [hsa] at hsb
    rw [toRat_of_sign_eq_false hsa, toRat_of_sign_eq_false hsb, orderKey_of_sign_eq_false hsa,
      orderKey_of_sign_eq_false hsb, if_neg Bool.false_ne_true]
    refine ⟨(cmp_eq_lt_iff _ _).2 (by omega), fun heq => ?_⟩
    have := (cmp_eq_lt_iff _ _).1 heq
    linarith

end Misplaced

/-- The keys and the values have the same order, unless one of the numbers is misplaced. -/
theorem cmp_orderKey_eq_iff (ha : a.isNan = false) (hb : b.isNan = false) :
    cmp a.orderKey b.orderKey = cmp a.toRat b.toRat ↔ ¬(a.Misplaced b ∨ b.Misplaced a) := by
  constructor
  · intro heq hor
    rcases hor with hab | hba
    · obtain ⟨hkey, hvalue⟩ := hab.cmp_orderKey
      exact hvalue (heq.symm.trans hkey)
    · obtain ⟨hkey, hvalue⟩ := hba.cmp_orderKey
      exact hvalue ((cmp_eq_cmp_symm.1 heq).symm.trans hkey)
  · intro hnone
    obtain ⟨hab, hba⟩ := not_or.1 hnone
    exact (cmp_toRat ha hb hab hba).symm

/-- A comparison tells the order of the places, unless one of the numbers is misplaced.  A
misplaced number is told to be nearer to zero than the other one. -/
theorem compare_order (a b : Extended)
    (henc : a.isInfinite = true ∨ b.isInfinite = true → a.HasEncoding ∧ b.HasEncoding) :
    (compare a b = .unordered ↔ a.isNan = true ∨ b.isNan = true) ∧
      (a.isNan = false → b.isNan = false →
        (compare a b = .ofOrdering (cmp a.place b.place) ↔ ¬(a.Misplaced b ∨ b.Misplaced a)) ∧
        (a.Misplaced b → compare a b = if a.sign then .greater else .less) ∧
        (b.Misplaced a → compare a b = if b.sign then .less else .greater)) := by
  refine ⟨compare_eq_unordered_iff, fun ha hb => ?_⟩
  rw [compare_eq_cmp_orderKey ha hb, cmp_place ha hb henc, Relation.ofOrdering_injective.eq_iff]
  refine ⟨cmp_orderKey_eq_iff ha hb, fun hab => ?_, fun hba => ?_⟩
  · rw [hab.cmp_orderKey.1]
    cases a.sign <;> rfl
  · rw [← cmp_swap, hba.cmp_orderKey.1]
    cases b.sign <;> rfl

/-- The number with the field zero and the top bit alone, and the one with the field one and the
same significand. -/
theorem compare_order_leastNormal :
    (isInfinite ⟨false, 0, integerBit⟩ = true ∨ isInfinite ⟨false, 1, integerBit⟩ = true →
      HasEncoding ⟨false, 0, integerBit⟩ ∧ HasEncoding ⟨false, 1, integerBit⟩) ∧
    compare ⟨false, 0, integerBit⟩ ⟨false, 1, integerBit⟩ = .less :=
  have henc : isInfinite ⟨false, 0, integerBit⟩ = true ∨ isInfinite ⟨false, 1, integerBit⟩ = true →
      HasEncoding ⟨false, 0, integerBit⟩ ∧ HasEncoding ⟨false, 1, integerBit⟩ := by decide
  ⟨henc, ((compare_order _ _ henc).2 (by decide) (by decide)).2.1 (by decide)⟩

/-- The number with the field zero and the top bit alone is as large as the least normal one, and
is told to be less. -/
theorem not_compare_leastNormal :
    place ⟨false, 0, integerBit⟩ = place ⟨false, 1, integerBit⟩ ∧
      compare ⟨false, 0, integerBit⟩ ⟨false, 1, integerBit⟩ ≠
        .ofOrdering (cmp (place ⟨false, 0, integerBit⟩) (place ⟨false, 1, integerBit⟩)) := by
  have hplace : place ⟨false, 0, integerBit⟩ = place ⟨false, 1, integerBit⟩ := rfl
  refine ⟨hplace, ?_⟩
  rw [hplace, cmp_self_eq_eq]
  decide

end Extended

end Ia32
