import Mathlib.Data.Rat.Floor
import Ia32.Proofs.RoundedArithmetic

/-!
# Partial remainders

The steps of a division take multiples of the divisor from the magnitude of a
number, until less than the divisor is left.  No step rounds.  The significands
of dividend and divisor are moved to one place, and a remainder there has no more
bits than the divisor and no larger exponent than the dividend
(`Aligned.mod_spec`).  The place may lie below the last one of the registers.
Then both significands end in zeros, and so does the remainder
(`Aligned.dvd_mod`).

A step that is not the last lowers the exponent by 63 or leaves nothing
(`stepSpec_far`), so that the division ends (`exists_complete`).  What is left
then is the remainder of the quotient cut toward zero (`remainder_exact`).
-/

namespace Ia32

namespace Extended

variable {a b x : Extended} {place : Int}

/-! ## Magnitudes -/

theorem abs_toRat (x : Extended) : |x.toRat| = x.significand.toNat * 2 ^ x.scale := by
  rw [toRat, abs_signed (mul_nonneg (Nat.cast_nonneg _) (Format.two_zpow_pos _).le)]

theorem toRat_eq_signed_abs (x : Extended) : x.toRat = signed x.sign |x.toRat| := by
  rw [abs_toRat, toRat]

/-- The leading exponent of a number is that of the largest power of two in it. -/
theorem two_zpow_le_abs_iff (h : x.isFiniteNonzero = true) {k : Int} :
    2 ^ k ≤ |x.toRat| ↔ k ≤ x.leadingExponent := by
  rw [abs_toRat, two_zpow_le_iff (significand_pos h).ne', leadingExponent]

theorem leadingExponent_le_of_finite (h : x.isFiniteNonzero = true) (henc : x.HasEncoding) :
    x.leadingExponent ≤ 16383 := by
  have hbound := abs_toRat_lt_bound (.inr h) henc
  have hlead := (two_zpow_le_abs_iff h).2 le_rfl
  have hlt := (zpow_lt_zpow_iff_right₀ (one_lt_two (α := ℚ))).1 (hlead.trans_lt hbound)
  simp only [Format.extended] at hlt
  omega

/-! ## Exact encodings -/

theorem shift_shiftLeft (n j : Nat) (k : Int) : shift (n <<< j) k = shift n (k + j) := by
  unfold shift
  split
  next hk =>
    rw [if_pos (by omega), ← Nat.shiftLeft_add]
    congr 1
    omega
  next hk =>
    obtain ⟨i, hi⟩ := Int.eq_ofNat_of_zero_le (show 0 ≤ -k by omega)
    split
    next hpos =>
      obtain ⟨t, ht⟩ := Int.eq_ofNat_of_zero_le hpos
      obtain rfl : j = t + i := by omega
      rw [hi, ht, Int.toNat_natCast, Int.toNat_natCast, Nat.shiftLeft_add, Nat.shiftLeft_shiftRight]
    next hneg =>
      obtain ⟨t, ht⟩ := Int.eq_ofNat_of_zero_le (show 0 ≤ -(k + j) by omega)
      obtain rfl : i = j + t := by omega
      rw [hi, ht, Int.toNat_natCast, Int.toNat_natCast, Nat.shiftRight_add,
        Nat.shiftLeft_shiftRight]

theorem log2_shiftLeft {n : Nat} (hn : n ≠ 0) (j : Nat) : (n <<< j).log2 = n.log2 + j := by
  have hlow := Nat.log2_self_le hn
  have hhigh := Nat.lt_log2_self (n := n)
  have hpos := Nat.two_pow_pos j
  rw [Nat.shiftLeft_eq, Nat.log2_eq_iff (Nat.mul_ne_zero hn hpos.ne'), Nat.pow_add,
    Nat.add_right_comm, Nat.pow_add]
  exact ⟨Nat.mul_le_mul_right _ hlow, Nat.mul_lt_mul_of_pos_right hhigh hpos⟩

/-- A significand may be moved to a larger scale by the zeros at its end, when it does not lie so
far below the least numbers that the places are counted anew. -/
theorem ofExact_shiftLeft (sign : Bool) (n j : Nat) {scale : Int}
    (hlow : -128 < denormalMove scale) :
    ofExact sign (n <<< j) scale = ofExact sign n (scale + j) := by
  by_cases hn : n = 0
  · simp [ofExact, hn]
  · have hne : n <<< j ≠ 0 := by simpa using hn
    have htop : scale + ((n.log2 + j : Nat) : Int) = scale + j + n.log2 := by
      push_cast
      ring
    have hnormal : 63 - ((n.log2 + j : Nat) : Int) + j = 63 - n.log2 := by
      push_cast
      ring
    have hmove : denormalMove scale + j = denormalMove (scale + j) := by
      simp only [denormalMove]
      ring
    unfold ofExact
    dsimp only
    rw [if_neg hne, if_neg hn, log2_shiftLeft hn, shift_shiftLeft, htop, hnormal]
    split
    next => rfl
    next htiny =>
      have hhigh : denormalMove (scale + j) < 63 := by
        simp only [denormalMove, minExponent] at htiny ⊢
        omega
      rw [moveBits_eq_shift _ hlow (by omega), moveBits_eq_shift _ (by omega) (by omega),
        shift_shiftLeft, hmove]

/-- A multiple of the least number that fits the registers is encoded as itself. -/
theorem ofExact_multiple_spec (sign : Bool) {n : Nat} {scale : Int} (hbits : n < 2 ^ 64)
    (hlow : 2 ^ (Format.extended.leastPlace - scale).toNat ∣ n)
    (hhigh : n ≠ 0 → scale + n.log2 ≤ 16383) :
    (ofExact sign n scale).IsFinite ∧ (ofExact sign n scale).HasEncoding ∧
      (ofExact sign n scale).toRat = signed sign ((n : ℚ) * 2 ^ scale) := by
  by_cases hn : n = 0
  · subst hn
    have hzero : ofExact sign 0 scale = zero sign := rfl
    rw [hzero]
    exact ⟨zero_isFinite sign, zero_hasEncoding sign, by simp [signed]⟩
  · have hencoded : (ofExact sign n scale).HasEncoding :=
      ofExact_hasEncoding fun hne => (hhigh hne).trans (by decide)
    obtain ⟨m, hm⟩ := hlow
    rw [Nat.mul_comm, ← Nat.shiftLeft_eq] at hm
    have hmne : m ≠ 0 := by
      rintro rfl
      exact hn (by simpa using hm)
    have hle : m ≤ n := by
      rw [hm, Nat.shiftLeft_eq]
      exact Nat.le_mul_of_pos_right m (Nat.two_pow_pos _)
    have hleast : Format.extended.leastPlace = -16445 := by decide
    have hlog := log2_shiftLeft hmne (Format.extended.leastPlace - scale).toNat
    rw [← hm] at hlog
    have htop := hhigh hn
    obtain ⟨hfinite, hvalue⟩ := ofExact_spec sign
      (scale + (Format.extended.leastPlace - scale).toNat) hmne (hle.trans hbits.le) (by omega)
      (by omega)
    have hlow : -128 < denormalMove scale := by
      have hfew := log2_le_of_lt hn hbits
      simp only [denormalMove, minExponent]
      omega
    rw [← ofExact_shiftLeft _ _ _ hlow, ← hm] at hfinite hvalue
    refine ⟨hfinite, hencoded, ?_⟩
    rw [hvalue, zpow_add₀ two_ne_zero, zpow_natCast, hm, Nat.shiftLeft_eq]
    congr 1
    push_cast
    ring

/-! ## One step -/

/-- A step takes a multiple of the divisor from the magnitude of a number, and what is left is a
number with the same sign. -/
structure Reduces (a b : Extended) (multiple : Nat) (r : Extended) : Prop where
  finite : r.IsFinite
  encoded : r.HasEncoding
  sign_eq : r.sign = a.sign
  abs_eq : |a.toRat| = |r.toRat| + multiple * |b.toRat|

theorem reduces_self (hx : x.IsFinite) (henc : x.HasEncoding) : x.Reduces b 0 x :=
  ⟨hx, henc, rfl, by simp⟩

/-- At a smaller scale a significand ends in zeros, as many as lie below the least number. -/
theorem dvd_shiftLeft_normalizedSignificand (x : Extended) (h : place ≤ x.normalizedScale) :
    2 ^ (Format.extended.leastPlace - place).toNat ∣
      x.normalizedSignificand <<< (x.normalizedScale - place).toNat := by
  have hleast := leastPlace_le_scale x
  have hscale := normalizedScale_le_scale x
  rw [shiftLeft_normalizedSignificand x h, shift, if_pos (by omega), Nat.shiftLeft_eq]
  exact Dvd.dvd.mul_left (Nat.pow_dvd_pow 2 (by omega)) _

theorem dvd_normalizedSignificand (x : Extended) (h : x.normalizedScale ≤ place) :
    2 ^ (Format.extended.leastPlace - place).toNat ∣ x.normalizedSignificand := by
  have hself := dvd_shiftLeft_normalizedSignificand x le_rfl
  rw [sub_self, Int.toNat_zero, Nat.shiftLeft_zero] at hself
  exact (Nat.pow_dvd_pow 2 (by omega)).trans hself

theorem abs_toRat_eq_normalized (x : Extended) :
    |x.toRat| = x.normalizedSignificand * 2 ^ x.normalizedScale := by
  rw [abs_toRat, normalizedSignificand_mul]

/-- A significand stands for the dividend at a place between the bottom bits of divisor and
dividend. -/
structure Aligned (a b : Extended) (place : Int) (dividend : Nat) : Prop where
  divisor_le : b.normalizedScale ≤ place
  le_dividend : place ≤ a.normalizedScale
  dividend_eq : dividend = a.normalizedSignificand <<< (a.normalizedScale - place).toNat

namespace Aligned

variable {dividend : Nat}

/-- The dividend is a whole number of units of the place. -/
theorem abs_eq (h : Aligned a b place dividend) : |a.toRat| = dividend * 2 ^ place := by
  rw [h.dividend_eq, shiftLeft_normalizedSignificand_mul a h.le_dividend, abs_toRat]

/-- Dividend and divisor are multiples of the least number at their place, and so is the
remainder. -/
theorem dvd_mod (h : Aligned a b place dividend) :
    2 ^ (Format.extended.leastPlace - place).toNat ∣ dividend % b.normalizedSignificand :=
  (Nat.dvd_mod_iff (dvd_normalizedSignificand b h.divisor_le)).2
    (h.dividend_eq ▸ dvd_shiftLeft_normalizedSignificand a h.le_dividend)

/-- The remainder is encoded as itself. -/
theorem mod_spec (h : Aligned a b place dividend) (ha : a.isFiniteNonzero = true)
    (henc : a.HasEncoding) (hb : b.isFiniteNonzero = true) :
    (ofExact a.sign (dividend % b.normalizedSignificand) place).IsFinite ∧
      (ofExact a.sign (dividend % b.normalizedSignificand) place).HasEncoding ∧
      |(ofExact a.sign (dividend % b.normalizedSignificand) place).toRat| =
        (dividend % b.normalizedSignificand : Nat) * 2 ^ place := by
  have hpos := Format.two_zpow_pos (K := ℚ) place
  have hlt := Nat.mod_lt dividend (normalizedSignificand_pos hb)
  have htop (hne : dividend % b.normalizedSignificand ≠ 0) :
      place + (dividend % b.normalizedSignificand).log2 ≤ 16383 := by
    refine le_trans ?_ (leadingExponent_le_of_finite ha henc)
    rw [← two_zpow_le_abs_iff ha, h.abs_eq]
    refine (two_zpow_log2_le hne).trans (mul_le_mul_of_nonneg_right ?_ hpos.le)
    exact_mod_cast Nat.mod_le _ _
  obtain ⟨hfinite, hencoded, hvalue⟩ := ofExact_multiple_spec a.sign
    (hlt.trans (normalizedSignificand_lt b)) h.dvd_mod htop
  refine ⟨hfinite, hencoded, ?_⟩
  rw [hvalue, abs_signed (mul_nonneg (Nat.cast_nonneg _) hpos.le)]

/-- A division of the significand takes its quotient, moved to the place, times the divisor. -/
theorem reduces (h : Aligned a b place dividend) (ha : a.isFiniteNonzero = true)
    (henc : a.HasEncoding) (hb : b.isFiniteNonzero = true) :
    a.Reduces b ((dividend / b.normalizedSignificand) <<< (place - b.normalizedScale).toNat)
      (ofExact a.sign (dividend % b.normalizedSignificand) place) := by
  obtain ⟨hfinite, hencoded, hleft⟩ := h.mod_spec ha henc hb
  refine ⟨hfinite, hencoded, sign_ofExact _ _ _, ?_⟩
  obtain ⟨k, hk⟩ := Int.eq_ofNat_of_zero_le (Int.sub_nonneg.2 h.divisor_le)
  have hplace : (2 : ℚ) ^ place = 2 ^ k * 2 ^ b.normalizedScale := by
    rw [← zpow_natCast, ← zpow_add₀ two_ne_zero]
    congr 1
    omega
  have hdiv : (dividend : ℚ) = (dividend % b.normalizedSignificand : Nat) +
      b.normalizedSignificand * (dividend / b.normalizedSignificand : Nat) := by
    exact_mod_cast (Nat.mod_add_div dividend b.normalizedSignificand).symm
  rw [hleft, h.abs_eq, abs_toRat_eq_normalized b, hk, Int.toNat_natCast, Nat.shiftLeft_eq]
  calc (dividend : ℚ) * 2 ^ place = (dividend % b.normalizedSignificand : Nat) * 2 ^ place +
        b.normalizedSignificand * (dividend / b.normalizedSignificand : Nat) * 2 ^ place := by
        rw [← add_mul, ← hdiv]
    _ = _ := by
        rw [hplace]
        push_cast
        ring

end Aligned

/-- By how much the leading ones of two numbers differ. -/
def gap (a b : Extended) : Int := a.leadingExponent - b.leadingExponent

/-- How often a step takes the divisor. -/
def multipleTaken (a b : Extended) : Nat :=
  if gap a b < 0 then 0
  else if gap a b < 64 then
    a.normalizedSignificand <<< (gap a b).toNat / b.normalizedSignificand
  else (a.normalizedSignificand <<< 63 / b.normalizedSignificand) <<< (gap a b - 63).toNat

/-- What a step of a division does. -/
structure StepSpec (a b : Extended) (r : PartialRemainder) : Prop where
  exceptions_eq : r.exceptions = 0
  reduces : a.Reduces b (multipleTaken a b) r.value
  quotient_eq : r.complete = true → r.quotient = multipleTaken a b
  lt_divisor : r.complete = true → |r.value.toRat| < |b.toRat|
  le_gap : r.complete = false → 64 ≤ gap a b
  gap_falls : r.complete = false →
    r.value.isZero = true ∨ r.value.leadingExponent + 63 ≤ a.leadingExponent

section Steps

variable {value : Extended}

/-- A step that leaves less than the divisor is the last one. -/
theorem StepSpec.last (h : a.Reduces b (multipleTaken a b) value)
    (hlt : |value.toRat| < |b.toRat|) : StepSpec a b ⟨value, multipleTaken a b, true, 0⟩ where
  exceptions_eq := rfl
  reduces := h
  quotient_eq _ := rfl
  lt_divisor _ := hlt
  le_gap hpartial := nomatch hpartial
  gap_falls hpartial := nomatch hpartial

/-- Any other step lowers the leading exponent by 63 at least, or leaves nothing. -/
theorem StepSpec.partial (h : a.Reduces b (multipleTaken a b) value) (hfar : 64 ≤ gap a b)
    (hfalls : value.isZero = true ∨ value.leadingExponent + 63 ≤ a.leadingExponent) :
    StepSpec a b ⟨value, 0, false, 0⟩ where
  exceptions_eq := rfl
  reduces := h
  quotient_eq hlast := nomatch hlast
  lt_divisor hlast := nomatch hlast
  le_gap _ := hfar
  gap_falls _ := hfalls

end Steps

/-- A step that only compares. -/
theorem stepSpec_done (ha : a.IsFinite) (henc : a.HasEncoding) (hlt : |a.toRat| < |b.toRat|)
    (hnone : multipleTaken a b = 0) : StepSpec a b (.done (.exact a)) := by
  have hreduces : a.Reduces b (multipleTaken a b) a := hnone ▸ reduces_self ha henc
  have hlast := StepSpec.last hreduces hlt
  rwa [hnone] at hlast

/-- With exponents less than 64 apart one step is enough. -/
theorem stepSpec_near (ha : a.isFiniteNonzero = true) (henc : a.HasEncoding)
    (hb : b.isFiniteNonzero = true) (hlow : 0 ≤ gap a b) (hhigh : gap a b < 64) :
    StepSpec a b
      ⟨ofExact a.sign
          (a.normalizedSignificand <<< (gap a b).toNat % b.normalizedSignificand)
          b.normalizedScale,
        a.normalizedSignificand <<< (gap a b).toNat / b.normalizedSignificand, true, 0⟩ := by
  have hscales : gap a b = a.normalizedScale - b.normalizedScale := by
    simp only [gap, normalizedScale]
    omega
  have haligned : Aligned a b b.normalizedScale (a.normalizedSignificand <<< (gap a b).toNat) :=
    ⟨le_rfl, by omega, by rw [hscales]⟩
  have htaken : multipleTaken a b =
      a.normalizedSignificand <<< (gap a b).toNat / b.normalizedSignificand := by
    rw [multipleTaken, if_neg hlow.not_gt, if_pos hhigh]
  have hreduces := haligned.reduces ha henc hb
  rw [sub_self, Int.toNat_zero, Nat.shiftLeft_zero] at hreduces
  rw [← htaken] at hreduces ⊢
  refine .last hreduces ?_
  rw [(haligned.mod_spec ha henc hb).2.2, abs_toRat_eq_normalized b]
  refine mul_lt_mul_of_pos_right ?_ (Format.two_zpow_pos _)
  exact_mod_cast Nat.mod_lt _ (normalizedSignificand_pos hb)

theorem stepSpec_far (ha : a.isFiniteNonzero = true) (henc : a.HasEncoding)
    (hb : b.isFiniteNonzero = true) (hfar : 64 ≤ gap a b) :
    StepSpec a b
      ⟨ofExact a.sign (a.normalizedSignificand <<< 63 % b.normalizedSignificand)
        (a.leadingExponent - 126), 0, false, 0⟩ := by
  have hscales : gap a b - 63 = a.leadingExponent - 126 - b.normalizedScale := by
    simp only [gap, normalizedScale]
    omega
  have hplace : a.normalizedScale - (a.leadingExponent - 126) = 63 := by
    simp only [normalizedScale]
    omega
  have haligned : Aligned a b (a.leadingExponent - 126) (a.normalizedSignificand <<< 63) :=
    ⟨by omega, by omega, by rw [hplace]; rfl⟩
  have htaken : multipleTaken a b =
      (a.normalizedSignificand <<< 63 / b.normalizedSignificand) <<< (gap a b - 63).toNat := by
    rw [multipleTaken, if_neg (by omega), if_neg hfar.not_gt]
  have hreduces := haligned.reduces ha henc hb
  rw [← hscales, ← htaken] at hreduces
  refine .partial hreduces hfar (hreduces.finite.imp_right fun hr => ?_)
  have hlt : |(ofExact a.sign (a.normalizedSignificand <<< 63 % b.normalizedSignificand)
      (a.leadingExponent - 126)).toRat| < 2 ^ (a.leadingExponent - 62) := by
    have hsplit : a.leadingExponent - 62 = (64 : Nat) + (a.leadingExponent - 126) := by
      push_cast
      ring
    have hbits : a.normalizedSignificand <<< 63 % b.normalizedSignificand < 2 ^ 64 :=
      (Nat.mod_lt _ (normalizedSignificand_pos hb)).trans (normalizedSignificand_lt b)
    rw [(haligned.mod_spec ha henc hb).2.2, hsplit, zpow_add₀ two_ne_zero, zpow_natCast]
    exact mul_lt_mul_of_pos_right (by exact_mod_cast hbits) (Format.two_zpow_pos _)
  have hlead := ((two_zpow_le_abs_iff hr).2 le_rfl).trans_lt hlt
  have hexponent := (zpow_lt_zpow_iff_right₀ (one_lt_two (α := ℚ))).1 hlead
  omega

theorem remainderStep_spec (ha : a.isFiniteNonzero = true) (henc : a.HasEncoding)
    (hb : b.isFiniteNonzero = true) : StepSpec a b (remainderStep a b) := by
  unfold remainderStep
  dsimp only
  split
  next hbelow =>
    refine stepSpec_done (.inr ha) henc ?_ (if_pos hbelow)
    rw [← not_le]
    intro hle
    have hlead := (two_zpow_le_abs_iff ha).1 (((two_zpow_le_abs_iff hb).2 le_rfl).trans hle)
    omega
  next hnot =>
    split
    next hnear => exact stepSpec_near ha henc hb (not_lt.1 hnot) hnear
    next hfar => exact stepSpec_far ha henc hb (not_lt.1 hfar)

/-- Nothing is taken from zero. -/
theorem multipleTaken_of_isZero (h : a.isZero = true) : multipleTaken a b = 0 := by
  have hzero : a.normalizedSignificand = 0 := by
    unfold isZero at h
    rw [normalizedSignificand, eq_of_beq (Bool.and_eq_true_iff.1 h).2]
    exact Nat.zero_shiftLeft _
  simp [multipleTaken, hzero]

theorem partialRemainder_of_isZero (ha : a.isZero = true) (hb : b.isFiniteNonzero = true) :
    partialRemainder a b = .done (.exact a) := by
  obtain ⟨hnana, hinfa⟩ := isFinite_iff.1 (.inl ha)
  obtain ⟨hnanb, hinfb, hzerob⟩ := isFiniteNonzero_iff.1 hb
  simp [partialRemainder, nanResult?_eq_none hnana hnanb, hinfa, hzerob, ha]

theorem complete_of_isZero (ha : a.isZero = true) (hb : b.isFiniteNonzero = true) :
    (partialRemainder a b).complete = true := by
  rw [partialRemainder_of_isZero ha hb]
  rfl

theorem partialRemainder_of_isFiniteNonzero (ha : a.isFiniteNonzero = true)
    (hb : b.isFiniteNonzero = true) : partialRemainder a b = remainderStep a b := by
  obtain ⟨hnana, hinfa, hzeroa⟩ := isFiniteNonzero_iff.1 ha
  obtain ⟨hnanb, hinfb, hzerob⟩ := isFiniteNonzero_iff.1 hb
  simp [partialRemainder, nanResult?_eq_none hnana hnanb, hinfa, hzerob, hzeroa, hinfb]

theorem partialRemainder_spec (ha : a.IsFinite) (henc : a.HasEncoding)
    (hb : b.isFiniteNonzero = true) : StepSpec a b (partialRemainder a b) := by
  rcases ha with hzero | hfinite
  · rw [partialRemainder_of_isZero hzero hb]
    refine stepSpec_done (.inl hzero) henc ?_ (multipleTaken_of_isZero hzero)
    rw [toRat_of_isZero hzero, abs_zero]
    exact abs_pos.2 (toRat_ne_zero hb)
  · rw [partialRemainder_of_isFiniteNonzero hfinite hb]
    exact remainderStep_spec hfinite henc hb

/-! ## Repeated steps -/

/-- What is left after some steps. -/
def remainderAfter (a b : Extended) (n : Nat) : Extended :=
  (fun r => (partialRemainder r b).value)^[n] a

/-- The step after so many others. -/
def stepAfter (a b : Extended) (n : Nat) : PartialRemainder :=
  partialRemainder (remainderAfter a b n) b

/-- The first step that is complete comes after so many others. -/
def CompletesAfter (a b : Extended) (n : Nat) : Prop :=
  (stepAfter a b n).complete = true ∧ ∀ k < n, (stepAfter a b k).complete = false

theorem remainderAfter_succ (a b : Extended) (n : Nat) :
    remainderAfter a b (n + 1) = (stepAfter a b n).value :=
  Function.iterate_succ_apply' _ _ _

/-- What the steps so far took. -/
def totalTaken (a b : Extended) : Nat → Nat
  | 0 => 0
  | n + 1 => totalTaken a b n + multipleTaken (remainderAfter a b n) b

/-- The steps together have taken a multiple of the divisor. -/
theorem reduces_remainderAfter (ha : a.IsFinite) (henc : a.HasEncoding)
    (hb : b.isFiniteNonzero = true) (n : Nat) :
    a.Reduces b (totalTaken a b n) (remainderAfter a b n) := by
  induction n with
  | zero => exact reduces_self ha henc
  | succ n ih =>
    have hstep := (partialRemainder_spec ih.finite ih.encoded hb).reduces
    rw [remainderAfter_succ]
    refine ⟨hstep.finite, hstep.encoded, hstep.sign_eq.trans ih.sign_eq, ?_⟩
    rw [ih.abs_eq, hstep.abs_eq, totalTaken, stepAfter]
    push_cast
    ring

theorem stepAfter_spec (ha : a.IsFinite) (henc : a.HasEncoding) (hb : b.isFiniteNonzero = true)
    (n : Nat) : StepSpec (remainderAfter a b n) b (stepAfter a b n) :=
  have hreduces := reduces_remainderAfter ha henc hb n
  partialRemainder_spec hreduces.finite hreduces.encoded hb

/-- The exponents come closer with every step, so that some step is the last. -/
theorem exists_complete (ha : a.IsFinite) (henc : a.HasEncoding) (hb : b.isFiniteNonzero = true) :
    ∃ n, (stepAfter a b n).complete = true := by
  induction hgap : (gap a b).toNat using Nat.strong_induction_on generalizing a with
  | _ g ih =>
    have hspec := partialRemainder_spec ha henc hb
    cases hcomplete : (partialRemainder a b).complete with
    | true => exact ⟨0, hcomplete⟩
    | false =>
      have hle := hspec.le_gap hcomplete
      rcases hspec.gap_falls hcomplete with hzero | hfalls
      · exact ⟨1, complete_of_isZero hzero hb⟩
      · unfold gap at *
        obtain ⟨n, hn⟩ := ih _ (by omega) hspec.reduces.finite hspec.reduces.encoded rfl
        exact ⟨n + 1, hn⟩

/-- The exponent falls with every step, so that there is a last one. -/
theorem exists_completesAfter (ha : a.IsFinite) (henc : a.HasEncoding)
    (hb : b.isFiniteNonzero = true) : ∃ n, CompletesAfter a b n := by
  have hexists := exists_complete ha henc hb
  refine ⟨Nat.find hexists, Nat.find_spec hexists, fun k hk => ?_⟩
  exact Bool.eq_false_iff.2 (Nat.find_min hexists hk)

/-! ## The quotient -/

/-- When less than the divisor is left, what was taken is the quotient. -/
theorem Reduces.floor_eq {r : Extended} {multiple : Nat} (h : a.Reduces b multiple r)
    (hlt : |r.toRat| < |b.toRat|) : ⌊|a.toRat| / |b.toRat|⌋₊ = multiple := by
  have hpos : 0 < |b.toRat| := (abs_nonneg _).trans_lt hlt
  have hleft := abs_nonneg r.toRat
  rw [Nat.floor_eq_iff (by positivity), le_div_iff₀ hpos, div_lt_iff₀ hpos, h.abs_eq]
  constructor <;> linarith

/-- A number cut toward zero. -/
def towardZero (q : ℚ) : Int := if 0 ≤ q then ⌊q⌋ else ⌈q⌉

theorem towardZero_signed (sign : Bool) {q : ℚ} (hq : 0 ≤ q) :
    (towardZero (signed sign q) : ℚ) = signed sign (⌊q⌋₊ : ℚ) := by
  have hfloor : ((⌊q⌋ : ℤ) : ℚ) = ⌊q⌋₊ := (natCast_floor_eq_intCast_floor hq).symm
  unfold towardZero signed
  cases sign with
  | false => rw [if_neg Bool.false_ne_true, if_neg Bool.false_ne_true, if_pos hq, hfloor]
  | true =>
    rw [if_pos rfl, if_pos rfl]
    split
    next hneg =>
      obtain rfl : q = 0 := by linarith
      simp
    next => rw [Int.ceil_neg, Int.cast_neg, hfloor]

theorem div_toRat_eq_signed (a b : Extended) :
    a.toRat / b.toRat = signed (a.sign != b.sign) (|a.toRat| / |b.toRat|) := by
  rw [← signed_div_signed, ← toRat_eq_signed_abs, ← toRat_eq_signed_abs]

theorem Reduces.toRat_eq {r : Extended} {multiple : Nat} (h : a.Reduces b multiple r) :
    a.toRat = r.toRat + signed (a.sign != b.sign) (multiple : ℚ) * b.toRat := by
  rw [toRat_eq_signed_abs a, toRat_eq_signed_abs b, toRat_eq_signed_abs r, h.sign_eq,
    signed_mul_signed, h.abs_eq]
  cases a.sign <;> cases b.sign <;> simp [signed] <;> ring

/-- What is left in the end is the remainder of the quotient cut toward zero. -/
theorem Reduces.toRat_eq_sub {r : Extended} {multiple : Nat} (h : a.Reduces b multiple r)
    (hlt : |r.toRat| < |b.toRat|) :
    r.toRat = a.toRat - b.toRat * towardZero (a.toRat / b.toRat) := by
  rw [div_toRat_eq_signed, towardZero_signed _ (by positivity), h.floor_eq hlt, h.toRat_eq]
  ring

/-- A number is left of another one by a division: it has its sign, and differs from it by an
integral multiple of the divisor. -/
structure IsLeftOf (r a b : Extended) : Prop where
  finite : r.IsFinite
  encoded : r.HasEncoding
  sign_eq : r.sign = a.sign
  multiple : ∃ m : ℤ, a.toRat - r.toRat = m * b.toRat

/-- The steps leave the sign of the dividend, and take multiples of the divisor from it. -/
theorem Reduces.isLeftOf {r : Extended} {multiple : Nat} (h : a.Reduces b multiple r) :
    r.IsLeftOf a b := by
  refine ⟨h.finite, h.encoded, h.sign_eq, bif a.sign != b.sign then -multiple else multiple, ?_⟩
  rw [h.toRat_eq]
  cases a.sign != b.sign <;> simp [signed]

/-- The division of finite numbers ends.  No step rounds, and each but the last lowers the exponent
or leaves nothing.  In the end less than the divisor is left. -/
theorem remainder_exact (ha : a.IsFinite) (henc : a.HasEncoding) (hb : b.isFiniteNonzero = true) :
    ∃ n, CompletesAfter a b n ∧
      (∀ k ≤ n, (stepAfter a b k).exceptions = 0 ∧ (stepAfter a b k).value.IsLeftOf a b) ∧
      (∀ k < n, (stepAfter a b k).value.isZero = true ∨
        gap (stepAfter a b k).value b + 63 ≤ gap (remainderAfter a b k) b) ∧
      (stepAfter a b n).value.toRat = a.toRat - b.toRat * towardZero (a.toRat / b.toRat) ∧
      |(stepAfter a b n).value.toRat| < |b.toRat| := by
  obtain ⟨n, hn⟩ := exists_completesAfter ha henc hb
  have hleft (k : Nat) : a.Reduces b (totalTaken a b (k + 1)) (stepAfter a b k).value := by
    rw [← remainderAfter_succ]
    exact reduces_remainderAfter ha henc hb (k + 1)
  have hspec := stepAfter_spec ha henc hb
  have hlt := (hspec n).lt_divisor hn.1
  refine ⟨n, hn, fun k _ => ⟨(hspec k).exceptions_eq, (hleft k).isLeftOf⟩, fun k hk => ?_,
    (hleft n).toRat_eq_sub hlt, hlt⟩
  refine ((hspec k).gap_falls (hn.2 k hk)).imp_right fun hfalls => ?_
  unfold gap
  omega

/-- The greatest number divided by the least one. -/
theorem remainder_exact_extremes :
    let a : Extended := ⟨true, 0x7FFE, 0xFFFFFFFFFFFFFFFF⟩
    let b : Extended := ⟨false, 0, 3⟩
    a.IsFinite ∧ a.HasEncoding ∧ b.isFiniteNonzero = true ∧
      ∃ n, CompletesAfter a b n ∧
        (∀ k ≤ n, (stepAfter a b k).exceptions = 0 ∧ (stepAfter a b k).value.IsLeftOf a b) ∧
        (∀ k < n, (stepAfter a b k).value.isZero = true ∨
          gap (stepAfter a b k).value b + 63 ≤ gap (remainderAfter a b k) b) ∧
        (stepAfter a b n).value.toRat = a.toRat - b.toRat * towardZero (a.toRat / b.toRat) ∧
        |(stepAfter a b n).value.toRat| < |b.toRat| :=
  have ha : IsFinite ⟨true, 0x7FFE, 0xFFFFFFFFFFFFFFFF⟩ := by decide
  have henc : HasEncoding ⟨true, 0x7FFE, 0xFFFFFFFFFFFFFFFF⟩ := by decide
  have hb : isFiniteNonzero ⟨false, 0, 3⟩ = true := by decide
  ⟨ha, henc, hb, remainder_exact ha henc hb⟩

end Extended

end Ia32
