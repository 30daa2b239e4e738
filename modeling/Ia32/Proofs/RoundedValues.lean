import Ia32.Proofs.CorrectRounding
import Ia32.Proofs.NumberEncodings

/-!
# Rounded values

`roundTo` rounds correctly (`roundTo_roundsTo`): its result is the exact value,
rounded once, and its exceptions are the ones of that rounding.  The exact value
need not be the number that `roundTo` is given.  It is enough that both lie
alike among the multiples of a power of two below the last place, so that a
significand that is cut off and ends in a sticky bit will do (`agreeAt_orSticky`).

There is one exception.  The places below the least normal number are counted up
to a limit only (`depthLimit`).  A number below that is still rounded to zero when
the direction does not lead away from it.  Otherwise one unit is kept of it at a
place that has nothing to do with the least number (`keep_of_far`).
-/

namespace Ia32

variable {K : Type*} [Field K]

/-! ## Signs -/

theorem signed_mul (sign : Bool) (x y : K) : signed sign x * y = signed sign (x * y) := by
  cases sign <;> simp [signed]

theorem signed_mul_signed (s t : Bool) (x y : K) :
    signed s x * signed t y = signed (s != t) (x * y) := by
  cases s <;> cases t <;> simp [signed]

theorem signed_div_signed (s t : Bool) (x y : K) :
    signed s x / signed t y = signed (s != t) (x / y) := by
  cases s <;> cases t <;> simp [signed, neg_div, div_neg]

theorem signed_ne_zero {sign : Bool} {x : K} (hx : x ≠ 0) : signed sign x ≠ 0 := by
  cases sign <;> simp [signed, hx]

theorem signed_zero (sign : Bool) : signed sign (0 : K) = 0 := by
  cases sign <;> simp [signed]

theorem signed_inj {sign : Bool} {x y : K} : signed sign x = signed sign y ↔ x = y := by
  cases sign <;> simp [signed]

/-- An integer is its magnitude with its sign. -/
theorem signed_natAbs (n : Int) : signed (decide (n < 0)) (n.natAbs : K) = n := by
  rcases lt_or_ge n 0 with hneg | hnonneg
  · rw [signed, decide_eq_true hneg, if_pos rfl, Nat.cast_natAbs, abs_of_neg hneg, Int.cast_neg,
      neg_neg]
  · rw [signed, decide_eq_false hnonneg.not_gt, if_neg Bool.false_ne_true, Nat.cast_natAbs,
      abs_of_nonneg hnonneg]

variable [LinearOrder K] [IsStrictOrderedRing K]

/-! ## Sticky bits -/

/-- Setting the last bit of a number makes it the odd one of a pair. -/
theorem orSticky_true (n : Nat) : orSticky n true = 2 * (n / 2) + 1 := by
  have hodd : (n ||| 1) % 2 = 1 := by
    rw [Nat.mod_two_eq_one_iff_testBit_zero, Nat.testBit_or]
    simp
  have hhalf : (n ||| 1) / 2 = n / 2 := by simp [Nat.or_div_two]
  rw [orSticky, Bool.toNat_true]
  omega

@[simp] theorem orSticky_false (n : Nat) : orSticky n false = n := Nat.or_zero n

theorem le_orSticky (n : Nat) (cut : Bool) : n ≤ orSticky n cut := Nat.left_le_or

theorem orSticky_le (n : Nat) (cut : Bool) : orSticky n cut ≤ n + 1 := by
  cases cut with
  | false => rw [orSticky_false]; exact Nat.le_succ n
  | true => rw [orSticky_true]; omega

/-- A number between two next naturals lies like the lower one with its last bit set, when anything
is cut off.  No multiple of two lies strictly between the naturals, so that only the last bit
differs. -/
theorem agreeAt_orSticky {n : Nat} {cut : Bool} {t : K} (place : Int) (hlow : n ≤ t)
    (hhigh : t < n + 1) (hcut : cut = true ↔ (n : K) < t) :
    AgreeAt (place + 1) (t * 2 ^ place) (orSticky n cut * 2 ^ place) := by
  have hpos := Format.two_zpow_pos (K := K) place
  intro j
  have hdouble : (j : K) * 2 ^ (place + 1) = ((2 * j : Int) : K) * 2 ^ place := by
    rw [zpow_add_one₀ two_ne_zero]
    push_cast
    ring
  rw [hdouble]
  simp only [mul_lt_mul_iff_left₀ hpos]
  cases cut with
  | false =>
    have heq : t = n := (hlow.eq_or_lt.resolve_right fun h => nomatch hcut.2 h).symm
    rw [orSticky_false, heq]
    exact ⟨Iff.rfl, Iff.rfl⟩
  | true =>
    have hlt : (n : K) < t := hcut.1 rfl
    have habove : t < ((2 * j : Int) : K) ↔ (n : Int) + 1 ≤ 2 * j := by
      constructor
      · intro h
        have hn : ((n : Int) : K) < (2 * j : Int) := by exact_mod_cast hlt.trans h
        exact Int.add_one_le_of_lt (Int.cast_lt.1 hn)
      · exact fun h => hhigh.trans_le (by exact_mod_cast h)
    have hbelow : ((2 * j : Int) : K) < t ↔ 2 * j < (n : Int) + 1 := by
      constructor
      · intro h
        have hn : ((2 * j : Int) : K) < ((n + 1 : Int) : K) := by
          push_cast at h ⊢
          exact h.trans hhigh
        exact Int.cast_lt.1 hn
      · intro h
        refine lt_of_le_of_lt ?_ hlt
        exact_mod_cast Int.le_of_lt_add_one h
    have hodd := orSticky_true n
    have hcast : ((orSticky n true : Nat) : K) = ((orSticky n true : Nat) : Int) := by push_cast; rfl
    rw [habove, hbelow, hcast, Int.cast_lt, Int.cast_lt]
    omega

/-! ## Magnitudes -/

/-- A number that is moved to a smaller scale keeps its value. -/
theorem Extended.shift_mul {n : Nat} {place scale : Int} (h : place ≤ scale) :
    (shift n (scale - place) : K) * 2 ^ place = n * 2 ^ scale := by
  obtain ⟨k, hk⟩ := Int.eq_ofNat_of_zero_le (Int.sub_nonneg.2 h)
  obtain rfl : scale = k + place := by omega
  rw [hk, shift, if_pos (Int.natCast_nonneg k), Int.toNat_natCast, Nat.shiftLeft_eq,
    zpow_add₀ two_ne_zero, zpow_natCast]
  push_cast
  ring

/-- Fewer places than a word has are counted as they are. -/
theorem Extended.moveBits_eq_shift (n : Nat) {k : Int} (hlow : -128 < k) (hhigh : k < 128) :
    moveBits n k = shift n k := by
  rw [moveBits, shift, Nat.mod_eq_of_lt (by omega), Nat.mod_eq_of_lt (by omega)]

/-- A number that is moved to a scale where it is a multiple loses nothing. -/
theorem Extended.shift_eq_of_mul_eq {n m : Nat} {place scale : Int}
    (h : (n : K) * 2 ^ scale = m * 2 ^ place) : shift n (scale - place) = m := by
  have hcancel {a b : Nat} {k : Int} (heq : (a : K) * 2 ^ k = b * 2 ^ k) : a = b := by
    exact_mod_cast mul_right_cancel₀ (Format.two_zpow_pos k).ne' heq
  rcases le_or_gt place scale with hle | hlt
  · exact hcancel ((shift_mul hle).trans h)
  · -- The other one is moved down, which adds zeros to it.
    have hn : shift m (place - scale) = n := hcancel ((shift_mul hlt.le).trans h.symm)
    rw [shift, if_pos (by omega)] at hn
    rw [shift, if_neg (by omega), ← hn, show -(scale - place) = place - scale by omega,
      Nat.shiftLeft_shiftRight]

theorem abs_signed {sign : Bool} {x : K} (hx : 0 ≤ x) : |signed sign x| = x := by
  cases sign <;> simp [signed, abs_of_nonneg hx]

theorem signed_neg_iff {sign : Bool} {x : K} (hx : 0 < x) : signed sign x < 0 ↔ sign = true := by
  cases sign <;> simp [signed, hx, hx.le]

theorem signed_pos_iff {sign : Bool} {x : K} (hx : 0 < x) : 0 < signed sign x ↔ sign = false := by
  cases sign <;> simp [signed, hx, hx.le]

/-! ## Leading ones -/

section LeadingOnes

variable {n : Nat} {scale : Int} {x : K}

theorem two_zpow_log2_le (hn : n ≠ 0) : (2 : K) ^ (scale + n.log2) ≤ n * 2 ^ scale := by
  rw [add_comm, zpow_add₀ two_ne_zero, zpow_natCast]
  refine mul_le_mul_of_nonneg_right ?_ (Format.two_zpow_pos scale).le
  exact_mod_cast Nat.log2_self_le hn

theorem lt_two_zpow_log2 : (n : K) * 2 ^ scale < 2 ^ (scale + n.log2 + 1) := by
  have hsplit : (2 : K) ^ (scale + n.log2 + 1) = 2 ^ (n.log2 + 1) * 2 ^ scale := by
    rw [← zpow_natCast, ← zpow_add₀ two_ne_zero]
    congr 1
    push_cast
    ring
  rw [hsplit]
  refine mul_lt_mul_of_pos_right ?_ (Format.two_zpow_pos scale)
  exact_mod_cast Nat.lt_log2_self

/-- The exponent of a leading one tells which powers of two a number reaches. -/
theorem two_zpow_le_iff {k : Int} (hn : n ≠ 0) :
    (2 : K) ^ k ≤ n * 2 ^ scale ↔ k ≤ scale + n.log2 := by
  constructor
  · intro h
    have hlt : (2 : K) ^ k < 2 ^ (scale + n.log2 + 1) := h.trans_lt lt_two_zpow_log2
    have := (zpow_lt_zpow_iff_right₀ (one_lt_two (α := K))).1 hlt
    omega
  · exact fun h => (zpow_le_zpow_right₀ one_le_two h).trans (two_zpow_log2_le hn)

/-- The same for a number that lies alike. -/
theorem AgreeAt.two_zpow_le_iff {g k : Int} (h : AgreeAt g x (n * 2 ^ scale)) (hn : n ≠ 0)
    (hk : g ≤ k) : (2 : K) ^ k ≤ x ↔ k ≤ scale + n.log2 := by
  obtain ⟨j, hj⟩ := Format.exists_multiple (K := K) hk 1
  rw [Int.cast_one, one_mul] at hj
  rw [hj, h.le_iff, ← hj, Ia32.two_zpow_le_iff hn]

theorem AgreeAt.lt_two_zpow_iff {g : Int} (h : AgreeAt g x (n * 2 ^ scale)) (hn : n ≠ 0)
    (hg : g ≤ scale + n.log2) (k : Int) : x < 2 ^ k ↔ scale + n.log2 < k := by
  have hlow : (2 : K) ^ (scale + n.log2) ≤ x := (h.two_zpow_le_iff hn hg).2 le_rfl
  constructor
  · exact fun hx => (zpow_lt_zpow_iff_right₀ (one_lt_two (α := K))).1 (hlow.trans_lt hx)
  · exact fun hk => lt_of_not_ge (mt (h.two_zpow_le_iff hn (by omega)).1 (by omega))

end LeadingOnes

/-! ## Dropping bits -/

/-- The direction in which the magnitude of a number with a sign is rounded. -/
def Rounding.onMagnitude (mode : Rounding) (sign : Bool) : Rounding :=
  if sign then mode.opposite else mode

theorem awayFromZero_onMagnitude (mode : Rounding) (sign odd half rest : Bool) :
    (mode.onMagnitude sign).awayFromZero false odd half rest =
      mode.awayFromZero sign odd half rest := by
  cases mode <;> cases sign <;> rfl

theorem Format.Rounds.signed {f : Format} {mode : Rounding} {sign : Bool} {x r : K}
    (h : f.Rounds (mode.onMagnitude sign) x r) (hx : x ≠ 0) :
    f.Rounds mode (signed sign x) (signed sign r) := by
  cases sign with
  | false => exact h
  | true => exact mode.opposite_opposite ▸ h.neg hx

section DroppingBits

variable {count : Nat}

/-- The kept part of a magnitude and the part that is cut off tell where its value lies. -/
theorem liesAt_shiftRight (magnitude : Nat) (hcount : count ≠ 0) (scale : Int) :
    LiesAt (scale + count) (magnitude >>> count) (magnitude.testBit (count - 1))
      (magnitude % Nat.pow 2 (count - 1) != 0) ((magnitude : K) * 2 ^ scale) := by
  obtain ⟨c, rfl⟩ := Nat.exists_eq_succ_of_ne_zero hcount
  rw [Nat.succ_sub_one]
  have hkept : 2 * (magnitude >>> c.succ) + (magnitude.testBit c).toNat = magnitude / 2 ^ c := by
    rw [Nat.shiftRight_succ, Nat.shiftRight_eq_div_pow, Nat.toNat_testBit]
    omega
  have hplace : scale + (c.succ : Nat) - 1 = c + scale := by push_cast; ring
  have hcut (q : Nat) :
      (q : K) * 2 ^ (scale + (c.succ : Nat) - 1) = ((q * 2 ^ c : Nat) : K) * 2 ^ scale := by
    rw [hplace, zpow_add₀ two_ne_zero, zpow_natCast]
    push_cast
    ring
  have hpos := Format.two_zpow_pos (K := K) scale
  have hdiv := Nat.div_add_mod' magnitude (2 ^ c)
  constructor
  · rw [hkept, hcut]
    refine mul_le_mul_of_nonneg_right ?_ hpos.le
    exact_mod_cast Nat.div_mul_le_self magnitude (2 ^ c)
  · rw [hkept, hcut]
    refine mul_lt_mul_of_pos_right ?_ hpos
    exact_mod_cast Nat.lt_mul_of_div_lt (Nat.lt_succ_self _) (Nat.two_pow_pos c)
  · rw [hkept, hcut, mul_lt_mul_iff_left₀ hpos, Nat.cast_lt, bne_iff_ne]
    change magnitude % 2 ^ c ≠ 0 ↔ _
    omega

theorem dropBits_eq (mode : Rounding) (sign : Bool) (magnitude : Nat) (hcount : count ≠ 0) :
    dropBits mode sign magnitude count =
      (LiesAt.chosen (mode.onMagnitude sign) (magnitude >>> count) (magnitude.testBit (count - 1))
          (magnitude % Nat.pow 2 (count - 1) != 0),
        magnitude.testBit (count - 1) || magnitude % Nat.pow 2 (count - 1) != 0) := by
  simp only [dropBits, LiesAt.chosen, awayFromZero_onMagnitude, if_neg hcount]

/-- Zeros below a magnitude change nothing. -/
theorem dropBits_shiftLeft (mode : Rounding) (sign : Bool) (magnitude zeros count : Nat) :
    dropBits mode sign (magnitude <<< zeros) (zeros + count) =
      dropBits mode sign magnitude count := by
  rcases Nat.eq_zero_or_pos zeros with rfl | hzeros
  · rw [Nat.zero_add, Nat.shiftLeft_zero]
  have hkept : (magnitude <<< zeros) >>> (zeros + count) = magnitude >>> count := by
    rw [Nat.shiftRight_add, Nat.shiftLeft_shiftRight]
  rcases Nat.eq_zero_or_pos count with rfl | hcount
  · -- Nothing but zeros is dropped.
    have hhalf : (magnitude <<< zeros).testBit (zeros - 1) = false := by
      rw [Nat.testBit_shiftLeft, decide_eq_false (by omega), Bool.false_and]
    have hrest : (magnitude <<< zeros) % Nat.pow 2 (zeros - 1) = 0 := by
      rw [Nat.shiftLeft_eq]
      exact Nat.mod_eq_zero_of_dvd
        (Nat.dvd_mul_left_of_dvd (Nat.pow_dvd_pow 2 (Nat.sub_le zeros 1)) magnitude)
    have haway (odd : Bool) : mode.awayFromZero sign odd false false = false := by
      cases mode <;> simp [Rounding.awayFromZero]
    rw [dropBits, dropBits, if_neg (by omega), if_pos rfl]
    simp only [Nat.add_zero] at hkept ⊢
    simp only [hkept, hhalf, hrest, haway, bne_self_eq_false, Bool.or_self, Bool.false_eq_true,
      if_false, Nat.shiftRight_zero]
  · have hindex : zeros + count - 1 = zeros + (count - 1) := by omega
    have hhalf : (magnitude <<< zeros).testBit (zeros + count - 1) =
        magnitude.testBit (count - 1) := by
      rw [hindex, Nat.testBit_shiftLeft, decide_eq_true (Nat.le_add_right _ _), Bool.true_and,
        Nat.add_sub_cancel_left]
    have hrest : ((magnitude <<< zeros) % Nat.pow 2 (zeros + count - 1) != 0) =
        (magnitude % Nat.pow 2 (count - 1) != 0) := by
      have hsplit : Nat.pow 2 (zeros + (count - 1)) = 2 ^ zeros * 2 ^ (count - 1) :=
        Nat.pow_add 2 zeros (count - 1)
      rw [hindex, hsplit, Nat.shiftLeft_eq, Nat.mul_comm magnitude, Nat.mul_mod_mul_left,
        Bool.eq_iff_iff, bne_iff_ne, bne_iff_ne, Ne, Nat.mul_eq_zero,
        or_iff_right (Nat.two_pow_pos zeros).ne']
      exact Iff.rfl
    rw [dropBits, dropBits, if_neg (by omega), if_neg hcount.ne', hkept, hhalf, hrest]

/-- A magnitude below one half of the place that is kept. -/
theorem dropBits_of_lt (mode : Rounding) (sign : Bool) {magnitude : Nat} (hm : magnitude ≠ 0)
    (h : magnitude < 2 ^ (count - 1)) :
    dropBits mode sign magnitude count =
      ((mode.awayFromZero sign false false true).toNat, true) := by
  have hcount : count ≠ 0 := by
    rintro rfl
    exact hm (Nat.lt_one_iff.1 h)
  have hkept : magnitude >>> count = 0 := by
    rw [Nat.shiftRight_eq_div_pow]
    exact Nat.div_eq_of_lt (h.trans_le (Nat.pow_le_pow_right Nat.two_pos (Nat.sub_le count 1)))
  have hrest : (magnitude % Nat.pow 2 (count - 1) != 0) = true :=
    bne_iff_ne.2 (by rwa [show Nat.pow 2 (count - 1) = 2 ^ (count - 1) from rfl, Nat.mod_eq_of_lt h])
  have heven : (0 % 2 == 1) = false := rfl
  rw [dropBits, if_neg hcount]
  simp only [hkept, heven, Nat.testBit_lt_two_pow h, hrest]
  cases mode.awayFromZero sign false false true <;> rfl

end DroppingBits

/-! ## The rounded significand -/

/-- A format is no wider than the registers. -/
structure Format.FitsRegisters (f : Format) : Prop where
  two_le_precision : 2 ≤ f.precision
  precision_le : f.precision ≤ 64
  le_minExponent : -16382 ≤ f.minExponent
  minExponent_lt : f.minExponent < f.maxExponent
  maxExponent_le : f.maxExponent ≤ 16383

theorem Format.extended_fitsRegisters : extended.FitsRegisters := by
  constructor <;> decide

section Significand

variable (f : Format) (mode : Rounding) (sign : Bool) (significand : Nat) (scale : Int)

/-- The exponent of the last place that is kept of `significand * 2 ^ scale`. -/
def lastPlace : Int := max (scale + significand.log2) f.minExponent - (f.precision - 1)

/-- The part of a significand that is kept, and whether it differs from the whole. -/
def keptPart : Nat × Bool :=
  if lastPlace f significand scale ≤ scale then
    (Extended.shift significand (scale - lastPlace f significand scale), false)
  else dropBits mode sign significand (lastPlace f significand scale - scale).toNat

variable {f mode sign significand scale}

theorem leastPlace_le_lastPlace : f.leastPlace ≤ lastPlace f significand scale :=
  Int.sub_le_sub_right (le_max_right _ _) _

/-- A significand that needs no cut. -/
theorem shift_lastPlace_lt (hf : f.FitsRegisters) (hle : lastPlace f significand scale ≤ scale) :
    Extended.shift significand (scale - lastPlace f significand scale) < 2 ^ f.precision := by
  obtain ⟨k, hk⟩ := Int.eq_ofNat_of_zero_le (Int.sub_nonneg.2 hle)
  have hp := hf.two_le_precision
  have hplace : scale + significand.log2 - (f.precision - 1) ≤ lastPlace f significand scale :=
    Int.sub_le_sub_right (le_max_left _ _) _
  rw [hk, Extended.shift, if_pos (Int.natCast_nonneg k), Int.toNat_natCast, Nat.shiftLeft_eq]
  calc significand * 2 ^ k < 2 ^ (significand.log2 + 1) * 2 ^ k :=
        Nat.mul_lt_mul_of_pos_right Nat.lt_log2_self (Nat.two_pow_pos k)
    _ = 2 ^ (significand.log2 + 1 + k) := (Nat.pow_add _ _ _).symm
    _ ≤ 2 ^ f.precision := Nat.pow_le_pow_right Nat.two_pos (by omega)

/-- A significand that is cut keeps no more bits than the format has, and all of these unless the
number is below the normal ones. -/
theorem shiftRight_lastPlace (hf : f.FitsRegisters) (hs : significand ≠ 0) {count : Nat}
    (hcount : lastPlace f significand scale = scale + count) :
    significand >>> count < 2 ^ f.precision ∧
      (lastPlace f significand scale = f.leastPlace ∨
        2 ^ (f.precision - 1) ≤ significand >>> count) := by
  have hp := hf.two_le_precision
  rw [Nat.shiftRight_eq_div_pow]
  constructor
  · have hplace : scale + significand.log2 - (f.precision - 1) ≤ lastPlace f significand scale :=
      Int.sub_le_sub_right (le_max_left _ _) _
    rw [Nat.div_lt_iff_lt_mul (Nat.two_pow_pos count), ← Nat.pow_add]
    exact Nat.lt_log2_self.trans_le (Nat.pow_le_pow_right Nat.two_pos (by omega))
  · rcases le_or_gt (scale + significand.log2) f.minExponent with hle | hlt
    · left
      rw [lastPlace, max_eq_right hle, Format.leastPlace]
    · right
      rw [lastPlace, max_eq_left hlt.le] at hcount
      rw [Nat.le_div_iff_mul_le (Nat.two_pow_pos count), ← Nat.pow_add]
      refine le_trans (Nat.pow_le_pow_right Nat.two_pos ?_) (Nat.log2_self_le hs)
      omega

/-- The kept part is the magnitude rounded to a multiple of the last place. -/
theorem keptPart_rounds (mode : Rounding) (sign : Bool) {g : Int} {x : K} (hf : f.FitsRegisters)
    (hs : significand ≠ 0) (hx : AgreeAt g x (significand * 2 ^ scale))
    (hg : g < lastPlace f significand scale) :
    f.Rounds (mode.onMagnitude sign) x
        ((keptPart f mode sign significand scale).1 * 2 ^ lastPlace f significand scale) ∧
      (((keptPart f mode sign significand scale).1 : K) * 2 ^ lastPlace f significand scale ≠ x ↔
        (keptPart f mode sign significand scale).2 = true) ∧
      (keptPart f mode sign significand scale).1 ≤ 2 ^ f.precision := by
  unfold keptPart
  split
  next hle =>
    obtain ⟨j, hj⟩ := Format.exists_multiple (K := K) (hg.le.trans hle) significand
    rw [Int.cast_natCast] at hj
    have hlt := shift_lastPlace_lt hf hle
    have hvalue : (Extended.shift significand (scale - lastPlace f significand scale) : K) *
        2 ^ lastPlace f significand scale = x := by
      rw [hx.eq_of_multiple hj, Extended.shift_mul hle]
    refine ⟨?_, by simp [hvalue], hlt.le⟩
    have hleast : f.leastPlace ≤ lastPlace f significand scale := leastPlace_le_lastPlace
    have hheld := Format.holds_natCast_mul (K := K) hlt hleast
    rw [hvalue] at hheld ⊢
    exact Format.rounds_self _ hheld
  next hlt =>
    obtain ⟨count, hcount⟩ := Int.eq_ofNat_of_zero_le (Int.sub_nonneg.2 (not_le.1 hlt).le)
    have hne : count ≠ 0 := by
      rintro rfl
      omega
    have hplace : lastPlace f significand scale = scale + count := by omega
    obtain ⟨hbits, hfull⟩ := shiftRight_lastPlace hf hs hplace
    have hlies := liesAt_shiftRight (K := K) significand hne scale
    rw [← hplace] at hlies
    have hliesx := (hx.mono (by omega)).liesAt hlies
    rw [hcount, Int.toNat_natCast, dropBits_eq mode sign significand hne]
    refine ⟨hliesx.rounds hf.two_le_precision leastPlace_le_lastPlace hbits hfull,
      hliesx.chosen_ne_iff _, (LiesAt.chosen_le _ _ _ _).trans hbits⟩

end Significand

/-! ## Encodings of exact values -/

namespace Extended

variable {sign : Bool} {n : Nat} {scale : Int}

theorem and_integerBit_ne_zero_iff (x : Qword) : x &&& integerBit ≠ 0 ↔ 2 ^ 63 ≤ x.toNat := by
  have hbit : integerBit = BitVec.twoPow 64 63 := by decide
  have htop : x.getLsbD 63 = decide (2 ^ 63 ≤ x.toNat) := x.msb_eq_decide
  rw [hbit, and_twoPow_ne_zero_iff (by decide), htop, decide_eq_true_iff]

/-- A number with a significand that has its top bit. -/
theorem normal_spec (sign : Bool) {e : Int} (hlow : 1 ≤ e) (hhigh : e ≤ 32766) (hn : 2 ^ 63 ≤ n)
    (hn' : n < 2 ^ 64) :
    IsFinite ⟨sign, BitVec.ofInt 16 e, BitVec.ofNat 64 n⟩ ∧
      toRat ⟨sign, BitVec.ofInt 16 e, BitVec.ofNat 64 n⟩ =
        signed sign ((n : ℚ) * 2 ^ (e - 16383 - 63)) := by
  have hexp : (BitVec.ofInt 16 e).toNat = e.toNat := by
    rw [BitVec.toNat_ofInt]
    omega
  have hsig : (BitVec.ofNat 64 n).toNat = n := Nat.mod_eq_of_lt hn'
  have hne : BitVec.ofInt 16 e ≠ 0 := by
    intro h
    have hzero : (BitVec.ofInt 16 e).toNat = 0 := congrArg BitVec.toNat h
    omega
  have hspecial : BitVec.ofInt 16 e ≠ specialExponent := by
    intro h
    have htop : (BitVec.ofInt 16 e).toNat = 32767 := congrArg BitVec.toNat h
    omega
  have hbit : BitVec.ofNat 64 n &&& integerBit ≠ 0 := by
    rw [and_integerBit_ne_zero_iff, hsig]
    exact hn
  constructor
  · right
    simp only [isFiniteNonzero, classify, if_neg hne, if_neg hspecial, bne_iff_ne.2 hbit, if_true]
  · simp only [toRat, hsig, Extended.scale, topExponent, if_neg hne, hexp, bias]
    rw [Int.toNat_of_nonneg (by omega)]

/-- A number with the least exponent. -/
theorem denormal_spec (sign : Bool) (hn : n < 2 ^ 64) :
    IsFinite ⟨sign, 0, BitVec.ofNat 64 n⟩ ∧
      toRat ⟨sign, 0, BitVec.ofNat 64 n⟩ = signed sign ((n : ℚ) * 2 ^ (-16445 : Int)) := by
  have hsig : (BitVec.ofNat 64 n).toNat = n := Nat.mod_eq_of_lt hn
  have hspecial : (0 : Word) ≠ specialExponent := by decide
  constructor
  · rcases eq_or_ne (BitVec.ofNat 64 n) 0 with hzero | hzero
    · left
      simp [isZero, hzero]
    · right
      simp only [isFiniteNonzero, classify, if_neg hspecial, if_neg hzero, if_true]
  · simp only [toRat, hsig, Extended.scale, topExponent, if_true, minExponent]
    rfl

/-- A significand shifted to the top of a register, which loses nothing. -/
theorem shift_top (hn : n ≠ 0) (hbits : n ≤ 2 ^ 64) (scale : Int) :
    2 ^ 63 ≤ shift n (63 - n.log2) ∧ shift n (63 - n.log2) < 2 ^ 64 ∧
      ((shift n (63 - n.log2) : Nat) : ℚ) * 2 ^ (scale + n.log2 - 63) = n * 2 ^ scale := by
  rcases Nat.lt_or_eq_of_le hbits with hlt | rfl
  · have htop : n.log2 ≤ 63 := log2_le_of_lt hn hlt
    have hshift : shift n (63 - n.log2) = n * 2 ^ (63 - n.log2) := by
      rw [shift, if_pos (by omega), Nat.shiftLeft_eq]
      congr 2
      omega
    refine ⟨?_, ?_, ?_⟩
    · calc 2 ^ 63 = 2 ^ n.log2 * 2 ^ (63 - n.log2) := by
            rw [← Nat.pow_add]; congr 1; omega
        _ ≤ shift n (63 - n.log2) := by
            rw [hshift]; exact Nat.mul_le_mul_right _ (Nat.log2_self_le hn)
    · calc shift n (63 - n.log2) < 2 ^ (n.log2 + 1) * 2 ^ (63 - n.log2) := by
            rw [hshift]; exact Nat.mul_lt_mul_of_pos_right Nat.lt_log2_self (Nat.two_pow_pos _)
        _ = 2 ^ 64 := by rw [← Nat.pow_add]; congr 1; omega
    · have hmove := shift_mul (K := ℚ) (n := n) (show scale + n.log2 - 63 ≤ scale by omega)
      rwa [show scale - (scale + n.log2 - 63) = 63 - n.log2 by omega] at hmove
  · -- The one significand of 65 bits is a power of two.
    have hlog : (2 ^ 64).log2 = 64 := Nat.log2_two_pow
    have hshift : shift (2 ^ 64) (63 - (2 ^ 64).log2) = 2 ^ 63 := by rw [hlog]; decide
    rw [hshift, hlog]
    refine ⟨le_rfl, by decide, ?_⟩
    rw [show scale + (64 : Nat) - 63 = 1 + scale by omega, zpow_add₀ two_ne_zero]
    push_cast
    ring

/-- A number that fits the registers is encoded as itself. -/
theorem ofExact_spec (sign : Bool) (scale : Int) (hn : n ≠ 0) (hbits : n ≤ 2 ^ 64)
    (hlow : -16445 ≤ scale) (hhigh : scale + n.log2 ≤ 16383) :
    (ofExact sign n scale).IsFinite ∧
      (ofExact sign n scale).toRat = signed sign ((n : ℚ) * 2 ^ scale) := by
  rcases le_or_gt (-16382) (scale + n.log2) with hnormal | htiny
  · obtain ⟨hmin, hmax, hvalue⟩ := shift_top hn hbits scale
    have h := normal_spec sign (e := scale + n.log2 + 16383) (by omega) (by omega) hmin hmax
    rw [show scale + n.log2 + 16383 - 16383 - 63 = scale + n.log2 - 63 by omega, hvalue] at h
    unfold ofExact
    rw [if_neg hn]
    dsimp only
    rw [if_pos (show minExponent ≤ scale + n.log2 from hnormal)]
    exact h
  · have hbound : shift n (scale - -16445) < 2 ^ 64 := by
      rw [shift, if_pos (by omega), Nat.shiftLeft_eq]
      calc n * 2 ^ (scale - -16445).toNat
          < 2 ^ (n.log2 + 1) * 2 ^ (scale - -16445).toNat :=
            Nat.mul_lt_mul_of_pos_right Nat.lt_log2_self (Nat.two_pow_pos _)
        _ = 2 ^ (n.log2 + 1 + (scale - -16445).toNat) := (Nat.pow_add _ _ _).symm
        _ ≤ 2 ^ 64 := Nat.pow_le_pow_right Nat.two_pos (by omega)
    have h := denormal_spec sign hbound
    rw [shift_mul hlow] at h
    unfold ofExact
    rw [if_neg hn]
    dsimp only
    rw [if_neg (show ¬minExponent ≤ scale + n.log2 from htiny.not_ge), denormalMove,
      show scale - (minExponent - 63) = scale - -16445 from rfl,
      moveBits_eq_shift n (by omega) (by omega)]
    exact h

@[simp] theorem sign_ofExact (sign : Bool) (n : Nat) (scale : Int) :
    (ofExact sign n scale).sign = sign := by
  unfold ofExact
  dsimp only
  split_ifs <;> rfl

@[simp] theorem toRat_zero (sign : Bool) : (zero sign).toRat = 0 := by
  cases sign <;> simp [zero, toRat, signed]

@[simp] theorem zero_isFinite (sign : Bool) : (zero sign).IsFinite := by
  cases sign <;> decide

end Extended

/-- The largest number of a format has a significand of ones. -/
theorem Format.largest_spec {f : Format} (hf : f.FitsRegisters) (sign : Bool) :
    (f.largest sign).IsFinite ∧ (f.largest sign).sign = sign ∧
      |(f.largest sign).toRat| = (2 ^ f.precision - 1) * 2 ^ (f.maxExponent - f.precision + 1) := by
  obtain ⟨hp, hp', hmin, hlt, hmax⟩ := hf
  have htwo : 2 ^ 2 ≤ 2 ^ f.precision := Nat.pow_le_pow_right Nat.two_pos hp
  have htop : 2 ^ f.precision ≤ 2 ^ 64 := Nat.pow_le_pow_right Nat.two_pos hp'
  have hne : 2 ^ f.precision - 1 ≠ 0 := by omega
  have hlog : (2 ^ f.precision - 1).log2 < f.precision := (Nat.log2_lt hne).2 (by omega)
  obtain ⟨hfinite, hvalue⟩ := Extended.ofExact_spec sign
    (f.maxExponent - f.precision + 1) hne (by omega) (by omega) (by omega)
  refine ⟨hfinite, Extended.sign_ofExact _ _ _, ?_⟩
  change |(Extended.ofExact sign (2 ^ f.precision - 1) _).toRat| = _
  rw [hvalue, abs_signed (by positivity), Nat.cast_sub (by omega)]
  push_cast
  ring

/-! ## Rounding -/

section Packing

variable {f : Format} {mode : Rounding} {sign : Bool} {significand : Nat} {scale : Int}

/-- A significand of no more than 128 bits is moved up by as many places as it lacks. -/
theorem log2_add_zeros (hbits : significand < 2 ^ 128) :
    significand.log2 + (127 - significand.log2) = 127 := by
  have hlog : significand.log2 ≤ 127 := by
    rcases eq_or_ne significand 0 with rfl | hs
    · decide
    · exact Extended.log2_le_of_lt hs hbits
  omega

/-- What is kept of a number that is not too far below the normal ones. -/
theorem keep_of_near (mode : Rounding) (sign : Bool) (hf : f.FitsRegisters)
    (hbits : significand < 2 ^ 128)
    (hnear : f.minExponent - (scale + significand.log2) ≤ depthLimit) :
    f.keep mode sign significand scale =
      ⟨(keptPart f mode sign significand scale).1, lastPlace f significand scale,
        (keptPart f mode sign significand scale).2,
        decide (scale + significand.log2 < f.minExponent)⟩ := by
  have hzeros := log2_add_zeros hbits
  have hp := hf.precision_le
  unfold Format.keep keptPart
  dsimp only
  generalize 127 - significand.log2 = zeros at hzeros
  have hexponent : scale - (zeros : Int) + 127 = scale + significand.log2 := by omega
  rw [hexponent]
  generalize hcount : 128 - f.precision + Int.toNat (if scale + (significand.log2 : Int) <
    f.minExponent then min (f.minExponent - (scale + significand.log2)) depthLimit else 0) = count
  have hplace : scale - zeros + count = lastPlace f significand scale := by
    unfold lastPlace
    split_ifs at hcount <;> omega
  rw [hplace]
  split
  next hle =>
    -- Only zeros are dropped.
    obtain ⟨k, rfl⟩ : ∃ k, zeros = k + count := ⟨zeros - count, by omega⟩
    have hdrop := dropBits_shiftLeft mode sign (significand <<< k) count 0
    rw [Nat.add_zero, ← Nat.shiftLeft_add] at hdrop
    have hshift : Extended.shift significand (scale - lastPlace f significand scale) =
        significand <<< k := by
      rw [Extended.shift, if_pos (by omega)]
      congr 1
      omega
    rw [hdrop, hshift, dropBits, if_pos rfl]
  next hlt =>
    obtain ⟨c, rfl⟩ : ∃ c, count = zeros + c := ⟨count - zeros, by omega⟩
    have hc : (lastPlace f significand scale - scale).toNat = c := by omega
    rw [dropBits_shiftLeft, hc]

/-- What is kept of a number too far below the normal ones: one unit when the direction of rounding
leads away from zero. -/
theorem keep_of_far (mode : Rounding) (sign : Bool) (hf : f.FitsRegisters) (hs : significand ≠ 0)
    (hbits : significand < 2 ^ 128)
    (hfar : depthLimit < f.minExponent - (scale + significand.log2)) :
    f.keep mode sign significand scale =
      ⟨(mode.awayFromZero sign false false true).toNat,
        scale + significand.log2 + 1 + depthLimit - f.precision, true, true⟩ := by
  have hzeros := log2_add_zeros hbits
  have hp := hf.precision_le
  simp only [depthLimit] at hfar
  unfold Format.keep
  dsimp only
  generalize 127 - significand.log2 = zeros at hzeros
  have hexponent : scale - (zeros : Int) + 127 = scale + significand.log2 := by omega
  have htiny : scale + (significand.log2 : Int) < f.minExponent := by omega
  have hdepth : min (f.minExponent - (scale + significand.log2)) depthLimit = (200 : Nat) := by
    simp only [depthLimit]
    omega
  rw [hexponent, decide_eq_true htiny, if_pos htiny, hdepth, Int.toNat_natCast]
  have hmoved : significand <<< zeros < 2 ^ (128 - f.precision + 200 - 1) := by
    rw [Nat.shiftLeft_eq]
    calc significand * 2 ^ zeros < 2 ^ (significand.log2 + 1) * 2 ^ zeros :=
          Nat.mul_lt_mul_of_pos_right Nat.lt_log2_self (Nat.two_pow_pos zeros)
      _ = 2 ^ (significand.log2 + 1 + zeros) := (Nat.pow_add _ _ _).symm
      _ ≤ 2 ^ (128 - f.precision + 200 - 1) := Nat.pow_le_pow_right Nat.two_pos (by omega)
  have hne : significand <<< zeros ≠ 0 := by
    rw [Nat.shiftLeft_eq]
    exact Nat.mul_ne_zero hs (Nat.two_pow_pos zeros).ne'
  rw [dropBits_of_lt mode sign hne hmoved]
  dsimp only
  congr 1
  simp only [depthLimit]
  omega

theorem overflowsToInfinity_iff {x : K} (hx : 0 < x) :
    mode.overflowsToInfinity sign = true ↔ mode = .nearest ∨ mode.LeadsAway (signed sign x) := by
  rw [Rounding.LeadsAway, signed_neg_iff hx, signed_pos_iff hx]
  cases mode <;> cases sign <;> decide

theorem eq_decide_signed_neg (sign : Bool) {x : K} (hx : 0 < x) :
    sign = decide (signed sign x < 0) := by
  rw [decide_eq_decide.2 (signed_neg_iff hx), Bool.decide_coe]

/-- A number that is rounded to one beyond the range of the format. -/
theorem roundsTo_of_overflow {x r : K} (hf : f.FitsRegisters) (hx : 0 < x)
    (hrounds : f.Rounds mode (signed sign x) r) (hbound : f.bound ≤ |r|) :
    RoundsTo f mode (signed sign x)
      ⟨if mode.overflowsToInfinity sign then .infinity sign else f.largest sign,
        Exception.overflow ||| Exception.precision⟩ := by
  have hsign := eq_decide_signed_neg sign hx
  split
  next hinf =>
    have h := RoundsTo.infinite hrounds hbound ((overflowsToInfinity_iff hx).1 hinf)
    rwa [← hsign] at h
  next hinf =>
    obtain ⟨hfinite, hsame, hvalue⟩ := Format.largest_spec hf sign
    exact .largest hrounds hbound (mt (overflowsToInfinity_iff hx).2 hinf) hfinite
      (hsame.trans hsign) hvalue

/-- A number that is rounded to zero. -/
theorem roundsTo_zero {x : K} (hx : 0 < x)
    (hrounds : f.Rounds mode (signed sign x) (signed sign 0)) :
    RoundsTo f mode (signed sign x)
      ⟨.zero sign, roundingExceptions f (signed sign x) (signed sign 0)⟩ := by
  refine .inRange hrounds ?_ (Extended.zero_isFinite sign) ?_ fun _ => eq_decide_signed_neg sign hx
  · rw [abs_signed le_rfl]
    exact Format.two_zpow_pos _
  · cases sign <;> simp [signed]

/-- A number that is rounded to one in the range of the format, which is encoded. -/
theorem roundsTo_ofExact {x : K} {kept : Nat} {place : Int} (hf : f.FitsRegisters) (hx : 0 < x)
    (hzero : kept ≠ 0) (hplace : f.leastPlace ≤ place) (hkept : kept ≤ 2 ^ f.precision)
    (hrounds : f.Rounds mode (signed sign x) (signed sign (kept * 2 ^ place)))
    (hover : ¬f.maxExponent < place + kept.log2) :
    RoundsTo f mode (signed sign x)
      ⟨.ofExact sign kept place,
        roundingExceptions f (signed sign x) (signed sign (kept * 2 ^ place))⟩ := by
  obtain ⟨hp, hp', hmin, hlt, hmax⟩ := hf
  simp only [Format.leastPlace] at hplace
  have hbits : kept ≤ 2 ^ 64 := hkept.trans (Nat.pow_le_pow_right Nat.two_pos hp')
  obtain ⟨hfinite, hvalue⟩ := Extended.ofExact_spec sign place hzero hbits (by omega) (by omega)
  refine .inRange hrounds ?_ hfinite ?_
    fun _ => (Extended.sign_ofExact _ _ _).trans (eq_decide_signed_neg sign hx)
  · rw [abs_signed (by positivity)]
    exact lt_of_not_ge (mt (two_zpow_le_iff hzero).1 hover)
  · rw [hvalue]
    cases sign <;> simp [signed]

/-- A kept part that is the rounded magnitude gives the rounded number. -/
theorem pack_roundsTo {x : K} {kept : Kept} (hf : f.FitsRegisters) (hx : 0 < x)
    (hplace : f.leastPlace ≤ kept.place) (hkept : kept.significand ≤ 2 ^ f.precision)
    (hrounds : f.Rounds mode (signed sign x) (signed sign (kept.significand * 2 ^ kept.place)))
    (hpart : (kept.significand : K) * 2 ^ kept.place ≠ x ↔ kept.inexact = true)
    (htiny : kept.tiny = true ↔ x < 2 ^ f.minExponent)
    (hleast : kept.tiny = true → kept.place = f.leastPlace) :
    RoundsTo f mode (signed sign x) (f.pack mode sign kept) := by
  obtain ⟨kept, place, inexact, tiny⟩ := kept
  dsimp only at hplace hkept hrounds hpart htiny hleast
  have hexceptions : (if !inexact then 0
      else if tiny then Exception.precision ||| Exception.underflow
      else Exception.precision) =
        roundingExceptions f (signed sign x) (signed sign (kept * 2 ^ place)) := by
    simp only [roundingExceptions, signed_inj, abs_signed hx.le, ← htiny]
    cases inexact with
    | false => rw [if_pos (of_not_not (mt hpart.1 Bool.false_ne_true)), Bool.not_false, if_pos rfl]
    | true => rw [if_neg (hpart.2 rfl), Bool.not_true, if_neg Bool.false_ne_true]
  simp only [Format.pack, hexceptions]
  by_cases hzero : kept = 0
  · rw [if_pos hzero]
    rw [hzero, Nat.cast_zero, zero_mul] at hrounds ⊢
    exact roundsTo_zero hx hrounds
  rw [if_neg hzero]
  by_cases hover : f.maxExponent < place + kept.log2
  · have hnormal : ¬x < 2 ^ f.minExponent := by
      -- A number below the normal ones has its last place at the bottom of the format.
      intro hbelow
      have hlog : kept.log2 ≤ f.precision :=
        Extended.log2_le_of_lt hzero (hkept.trans_lt (Nat.pow_lt_pow_succ Nat.one_lt_two))
      have hbottom := hleast (htiny.2 hbelow)
      have hrange := hf.minExponent_lt
      simp only [Format.leastPlace] at hbottom
      omega
    have hmerged : roundingExceptions f (signed sign x) (signed sign (kept * 2 ^ place)) |||
        Exception.overflow ||| Exception.precision =
          Exception.overflow ||| Exception.precision := by
      simp only [roundingExceptions, abs_signed hx.le, if_neg hnormal]
      split <;> decide
    rw [if_pos hover, hmerged]
    refine roundsTo_of_overflow hf hx hrounds ?_
    rw [abs_signed (by positivity)]
    exact (two_zpow_le_iff hzero).2 hover
  · rw [if_neg hover]
    exact roundsTo_ofExact hf hx hzero hplace hkept hrounds hover

variable {g : Int} {x : K}

/-- Far below the least number of a format, rounding gives zero unless it leads away from it. -/
theorem rounds_zero (hf : f.FitsRegisters) (hx : 0 < x) (hsmall : x < 2 ^ (f.leastPlace - 1))
    (haway : ¬mode.LeadsAway (signed sign x)) : f.Rounds mode (signed sign x) (signed sign 0) := by
  have hlies : LiesAt f.leastPlace 0 false true x :=
    ⟨by simpa using hx.le, by simpa using hsmall, by simpa using hx⟩
  have hrounds : f.Rounds (mode.onMagnitude sign) x _ :=
    hlies.rounds hf.two_le_precision le_rfl (by positivity) (.inl rfl)
  have hchosen : LiesAt.chosen (mode.onMagnitude sign) 0 false true = 0 := by
    rw [Rounding.LeadsAway, signed_neg_iff hx, signed_pos_iff hx] at haway
    revert haway
    cases mode <;> cases sign <;> decide
  rw [hchosen, Nat.cast_zero, zero_mul] at hrounds
  exact hrounds.signed hx.ne'

theorem awayFromZero_iff {x : K} (hx : 0 < x) :
    mode.awayFromZero sign false false true = true ↔ mode.LeadsAway (signed sign x) := by
  rw [Rounding.LeadsAway, signed_neg_iff hx, signed_pos_iff hx]
  cases mode <;> cases sign <;> decide

/-- A number too far below the normal ones is rounded to zero, unless the direction leads away. -/
theorem roundTo_of_far (hf : f.FitsRegisters) (hs : significand ≠ 0) (hbits : significand < 2 ^ 128)
    (hfar : depthLimit < f.minExponent - (scale + significand.log2))
    (haway : mode.awayFromZero sign false false true = false) :
    roundTo f mode sign significand scale =
      ⟨.zero sign, Exception.precision ||| Exception.underflow⟩ := by
  rw [roundTo, if_neg hs, keep_of_far mode sign hf hs hbits hfar, haway]
  rfl

/-- A number that is not zero is rounded correctly, unless it vanishes and should not. -/
theorem roundTo_roundsTo (hf : f.FitsRegisters) (hs : significand ≠ 0)
    (hbits : significand < 2 ^ 128) (hx : AgreeAt g x (significand * 2 ^ scale))
    (hg : g < lastPlace f significand scale) (hg' : g ≤ scale + significand.log2)
    (hv : mode.LeadsAway (signed sign x) →
      f.minExponent - (scale + significand.log2) ≤ depthLimit) :
    RoundsTo f mode (signed sign x) (roundTo f mode sign significand scale) := by
  have hpos : 0 < x := (Format.two_zpow_pos _).trans_le ((hx.two_zpow_le_iff hs hg').2 le_rfl)
  have hbelow := hx.lt_two_zpow_iff hs hg'
  rcases le_or_gt (f.minExponent - (scale + significand.log2)) depthLimit with hnear | hfar
  · obtain ⟨hrounds, hpart, hkept⟩ := keptPart_rounds mode sign hf hs hx hg
    rw [roundTo, if_neg hs, keep_of_near mode sign hf hbits hnear]
    refine pack_roundsTo hf hpos leastPlace_le_lastPlace hkept (hrounds.signed hpos.ne') hpart
      (decide_eq_true_iff.trans (hbelow _).symm) fun h => ?_
    dsimp only at h ⊢
    rw [lastPlace, max_eq_right (of_decide_eq_true h).le, Format.leastPlace]
  · have hp := hf.precision_le
    have haway : ¬mode.LeadsAway (signed sign x) := fun h => (hv h).not_gt hfar
    have hsmall : x < 2 ^ (f.leastPlace - 1) := by
      rw [hbelow, Format.leastPlace]
      simp only [depthLimit] at hfar
      omega
    have hrounds := rounds_zero hf hpos hsmall haway
    have hexceptions : roundingExceptions f (signed sign x) (signed sign 0) =
        Exception.precision ||| Exception.underflow := by
      have htiny : x < 2 ^ f.minExponent := by
        rw [hbelow]
        simp only [depthLimit] at hfar
        omega
      simp only [roundingExceptions, signed_inj, hpos.ne, abs_signed hpos.le, htiny, if_true,
        if_false]
    rw [← awayFromZero_iff hpos, Bool.not_eq_true] at haway
    rw [roundTo_of_far hf hs hbits hfar haway, ← hexceptions]
    exact roundsTo_zero hpos hrounds

/-- The same for a number that is known exactly. -/
theorem roundTo_exact_roundsTo (hf : f.FitsRegisters) (hs : significand ≠ 0)
    (hbits : significand < 2 ^ 128)
    (hv : mode.LeadsAway (signed sign ((significand : K) * 2 ^ scale)) →
      f.minExponent - (scale + significand.log2) ≤ depthLimit) :
    RoundsTo f mode (signed sign ((significand : K) * 2 ^ scale))
      (roundTo f mode sign significand scale) :=
  roundTo_roundsTo (g := min (lastPlace f significand scale - 1) (scale + significand.log2)) hf hs
    hbits (.refl _ _) ((min_le_left _ _).trans_lt (by omega)) (min_le_right _ _) hv

end Packing

end Ia32
