import Ia32.Float.Interchange
import Ia32.Proofs.IntegralValues

/-!
# Interchange formats

The bits of a number in memory are a sign, an exponent field and a fraction.
`Format.Encodes` says which finite number they encode, with the field zero for the
numbers whose significand lacks its top bit.

A number is narrowed in two moves.  It is rounded to the format, still as a number
of a register, and then the fields are taken from what came out.  These have cases
of their own for normal numbers and for those below.  Both follow the value:
every number of the format in its range has an encoding (`Format.exists_encodes`),
and the fields are those of any encoding of the value
(`Extended.fieldsOf_of_encodes`).  So the bits encode the number rounded once
(`EncodesRounded`), also where rounding carries into the next binade or into the
least normal number.
-/

namespace Ia32

/-! ## Fields -/

namespace Format

variable {f : Format} {sign : Bool} {field fraction bits : Nat}

/-- A format of numbers in memory: the fields of its finite numbers are all but the last one. -/
structure IsInterchange (f : Format) : Prop extends f.FitsRegisters where
  fields : f.maxExponent - f.minExponent + 3 = (2 ^ f.exponentBits : Nat)

theorem double_isInterchange : double.IsInterchange where
  two_le_precision := by decide
  precision_le := by decide
  le_minExponent := by decide
  minExponent_lt := by decide
  maxExponent_le := by decide
  fields := by decide

theorem single_isInterchange : single.IsInterchange where
  two_le_precision := by decide
  precision_le := by decide
  le_minExponent := by decide
  minExponent_lt := by decide
  maxExponent_le := by decide
  fields := by decide

/-- A sign, an exponent field and a fraction, one below the other. -/
def layout (f : Format) (sign : Bool) (field fraction : Nat) : Nat :=
  (sign.toNat * 2 ^ f.exponentBits + field) * 2 ^ f.fractionBits + fraction

theorem assemble_eq_layout (hfield : field < 2 ^ f.exponentBits)
    (hfraction : fraction < 2 ^ f.fractionBits) :
    f.assemble sign field fraction = f.layout sign field fraction := by
  rw [assemble, layout, Nat.add_comm f.fractionBits, Nat.shiftLeft_add, ← Nat.shiftLeft_or_distrib,
    ← Nat.shiftLeft_add_eq_or_of_lt hfield, ← Nat.shiftLeft_add_eq_or_of_lt hfraction,
    Nat.shiftLeft_eq, Nat.shiftLeft_eq]

theorem fractionBits_pos (hf : f.IsInterchange) : 0 < f.fractionBits :=
  Nat.sub_pos_of_lt hf.two_le_precision

/-- Some bits are the encoding of a number with a sign.  The field zero counts like the field one,
and stands for the numbers whose significand lacks its top bit. -/
inductive Encodes (f : Format) (sign : Bool) : ℚ → Nat → Prop
  /-- A number below the normal ones, or zero. -/
  | subnormal {fraction : Nat} (fraction_lt : fraction < 2 ^ f.fractionBits) :
      Encodes f sign (signed sign (fraction * 2 ^ f.leastPlace)) (f.layout sign 0 fraction)
  /-- A normal number. -/
  | normal {field fraction : Nat} (field_pos : 0 < field) (field_lt : field < f.specialField)
      (fraction_lt : fraction < 2 ^ f.fractionBits) :
      Encodes f sign
        (signed sign ((2 ^ f.fractionBits + fraction : Nat) * 2 ^ (field - 1 + f.leastPlace)))
        (f.layout sign field fraction)

theorem specialField_lt : f.specialField < 2 ^ f.exponentBits :=
  Nat.sub_lt (Nat.two_pow_pos _) Nat.one_pos

theorem fractionBits_add_one (hf : f.IsInterchange) : f.fractionBits + 1 = f.precision := by
  have hp := hf.two_le_precision
  rw [fractionBits]
  omega

/-- A multiple of a power of two is below another one when it has few enough bits. -/
theorem mul_lt_two_zpow_iff {n b : Nat} {k : Int} : (n : ℚ) * 2 ^ k < 2 ^ (b + k) ↔ n < 2 ^ b := by
  rw [zpow_add₀ two_ne_zero, zpow_natCast, mul_lt_mul_iff_left₀ (two_zpow_pos k)]
  exact_mod_cast Iff.rfl

theorem two_zpow_le_mul_iff {n b : Nat} {k : Int} : 2 ^ (b + k) ≤ (n : ℚ) * 2 ^ k ↔ 2 ^ b ≤ n := by
  rw [← not_lt, mul_lt_two_zpow_iff, not_lt]

/-- The least of the normal numbers has a significand with the top bit alone. -/
theorem minExponent_eq (hf : f.IsInterchange) : f.minExponent = f.fractionBits + f.leastPlace := by
  have hp := hf.two_le_precision
  rw [leastPlace, fractionBits]
  omega

/-- A significand with its top bit is encoded by a field that counts from the least exponent. -/
theorem exists_encodes_normal (hf : f.IsInterchange) (sign : Bool) {significand : Nat} {place : Int}
    (hfull : 2 ^ f.fractionBits ≤ significand) (hbits : significand < 2 ^ (f.fractionBits + 1))
    (hlow : f.leastPlace ≤ place) (hhigh : place + f.fractionBits ≤ f.maxExponent) :
    ∃ bits, f.Encodes sign (signed sign (significand * 2 ^ place)) bits := by
  obtain ⟨fraction, rfl⟩ := Nat.exists_eq_add_of_le hfull
  obtain ⟨field, hfield⟩ := Int.eq_ofNat_of_zero_le (Int.sub_nonneg.2 hlow)
  have hfields := hf.fields
  have hmin := minExponent_eq hf
  have hspecial : f.specialField = 2 ^ f.exponentBits - 1 := rfl
  have hplace : place = ((field + 1 : Nat) : Int) - 1 + f.leastPlace := by omega
  rw [hplace]
  exact ⟨_, .normal (Nat.succ_pos field) (by omega) (by omega)⟩

/-- Every magnitude of a format in its range has an encoding, with both signs. -/
theorem exists_encodes_natCast (hf : f.IsInterchange) (sign : Bool) {n : Nat} {k : Int}
    (hn : n < 2 ^ f.precision) (hk : f.leastPlace ≤ k) (hbound : (n : ℚ) * 2 ^ k < f.bound) :
    ∃ bits, f.Encodes sign (signed sign (n * 2 ^ k)) bits := by
  have hmin := minExponent_eq hf
  rcases lt_or_ge ((n : ℚ) * 2 ^ k) (2 ^ f.minExponent) with hsmall | hnormal
  · rw [← Extended.shift_mul hk, hmin] at hsmall
    rw [← Extended.shift_mul hk]
    exact ⟨_, .subnormal (mul_lt_two_zpow_iff.1 hsmall)⟩
  · have hne : n ≠ 0 := by
      rintro rfl
      rw [Nat.cast_zero, zero_mul] at hnormal
      exact hnormal.not_gt (two_zpow_pos _)
    have hlow := (two_zpow_le_iff (K := ℚ) hne).1 hnormal
    have hhigh : k + n.log2 ≤ f.maxExponent := by
      by_contra hgt
      exact hbound.not_ge ((two_zpow_le_iff hne).2 (by omega))
    have hlog : n.log2 ≤ f.fractionBits :=
      Extended.log2_le_of_lt hne (hn.trans_eq (by rw [fractionBits_add_one hf]))
    obtain ⟨place, hplace⟩ : ∃ place : Int, k + n.log2 = f.fractionBits + place :=
      ⟨k + n.log2 - f.fractionBits, by omega⟩
    have hshift := Extended.shift_mul (K := ℚ) (n := n) (show place ≤ k by omega)
    rw [← hshift]
    refine exists_encodes_normal hf sign ?_ ?_ (by omega) (by omega)
    · rw [← two_zpow_le_mul_iff (k := place), hshift, ← hplace]
      exact two_zpow_log2_le hne
    · rw [← mul_lt_two_zpow_iff (k := place), hshift, Nat.cast_succ, add_right_comm, ← hplace]
      exact lt_two_zpow_log2

/-- A zero has the field zero and the fraction zero. -/
theorem Encodes.eq_of_zero (h : f.Encodes sign 0 bits) : bits = f.layout sign 0 0 := by
  generalize hvalue : (0 : ℚ) = value at h
  cases h with
  | subnormal =>
    have hzero := mul_eq_zero.1 (signed_inj.1 ((signed_zero sign).trans hvalue)).symm
    rw [Nat.cast_eq_zero.1 (hzero.resolve_right (two_zpow_pos _).ne')]
  | normal =>
    have hzero := mul_eq_zero.1 (signed_inj.1 ((signed_zero sign).trans hvalue)).symm
    have hnone := Nat.cast_eq_zero.1 (hzero.resolve_right (two_zpow_pos _).ne')
    exact absurd hnone (Nat.add_pos_left (Nat.two_pow_pos _) _).ne'

/-- The largest number has the last field of a finite one and a fraction of ones. -/
theorem encodes_largest (hf : f.IsInterchange) (sign : Bool) :
    f.Encodes sign (signed sign ((2 ^ f.precision - 1) * 2 ^ (f.maxExponent - f.precision + 1)))
      (f.layout sign (f.specialField - 1) (2 ^ f.fractionBits - 1)) := by
  have hfields := hf.fields
  have hlt := hf.minExponent_lt
  have hprecision := fractionBits_add_one hf
  have hmin := minExponent_eq hf
  have hspecial : f.specialField = 2 ^ f.exponentBits - 1 := rfl
  have hpos := Nat.two_pow_pos f.fractionBits
  have hplace :
      f.maxExponent - f.precision + 1 = (f.specialField - 1 : Nat) - 1 + f.leastPlace := by omega
  have hones :
      (2 ^ f.precision - 1 : ℚ) = (2 ^ f.fractionBits + (2 ^ f.fractionBits - 1) : Nat) := by
    rw [← hprecision, Nat.cast_add, Nat.cast_sub hpos]
    push_cast
    ring
  rw [hplace, hones]
  exact .normal (by omega) (by omega) (by omega)

/-- Every number of a format in its range has an encoding. -/
theorem exists_encodes (hf : f.IsInterchange) {x : ℚ} (hx : f.Holds x) (hbound : |x| < f.bound)
    (sign : Bool) : ∃ bits, f.Encodes sign (signed sign |x|) bits := by
  obtain ⟨m, k, hm, hk, rfl⟩ := hx
  have habs : |(m : ℚ) * 2 ^ k| = m.natAbs * 2 ^ k := by
    rw [abs_mul, abs_of_pos (two_zpow_pos (K := ℚ) k), Nat.cast_natAbs, Int.cast_abs]
  have hbits : m.natAbs < 2 ^ f.precision := by
    rw [Int.abs_eq_natAbs] at hm
    exact_mod_cast hm
  rw [habs] at hbound ⊢
  exact exists_encodes_natCast hf sign hbits hk hbound

end Format

/-! ## Writing -/

namespace Extended

variable {f : Format} {mode : Rounding} {x : Extended} {bits : Nat}

/-- The magnitude of a number, moved down to a place where it is a multiple. -/
theorem normalizedSignificand_shiftRight {n : Nat} {place : Int} (count : Nat)
    (h : (n : ℚ) * 2 ^ place = x.significand.toNat * 2 ^ x.scale)
    (hcount : place = x.normalizedScale + count) : x.normalizedSignificand >>> count = n := by
  rw [← normalizedSignificand_mul] at h
  have hshift := shift_eq_of_mul_eq h.symm
  rcases Nat.eq_zero_or_pos count with rfl | hpos
  · rw [shift, if_pos (by omega), show (x.normalizedScale - place).toNat = 0 by omega] at hshift
    exact hshift
  · rwa [shift, if_neg (by omega), show (-(x.normalizedScale - place)).toNat = count by omega]
      at hshift

/-- The fields of a number are found from its value. -/
theorem fieldsOf_of_encodes (hf : f.IsInterchange) (hx : x.isFiniteNonzero = true)
    (h : f.Encodes x.sign x.toRat bits) : fieldsOf f x = bits := by
  have hmin := Format.minExponent_eq hf
  have hprecision := Format.fractionBits_add_one hf
  have hwide := hf.precision_le
  generalize hvalue : x.toRat = value at h
  cases h with
  | @subnormal fraction fraction_lt =>
    have hmagnitude := signed_inj.1 hvalue
    have hsmall : ¬f.minExponent ≤ x.leadingExponent := by
      rw [← two_zpow_le_abs_iff hx, abs_toRat, hmagnitude, hmin, Format.two_zpow_le_mul_iff]
      exact fraction_lt.not_ge
    -- The number is not below the least one of the format.
    have hleast : f.leastPlace ≤ x.leadingExponent := by
      have hpos : 0 < fraction := by
        rcases Nat.eq_zero_or_pos fraction with rfl | hpos
        · rw [Nat.cast_zero, zero_mul] at hmagnitude
          exact absurd hmagnitude (magnitude_pos hx).ne'
        · exact hpos
      rw [← two_zpow_le_abs_iff hx, abs_toRat, hmagnitude]
      exact le_mul_of_one_le_left (Format.two_zpow_pos _).le (by exact_mod_cast hpos)
    have hplaces : (63 - f.fractionBits + (f.minExponent - x.leadingExponent).toNat) % 64 =
        63 - f.fractionBits + (f.minExponent - x.leadingExponent).toNat :=
      Nat.mod_eq_of_lt (by omega)
    have hshift := normalizedSignificand_shiftRight
      (63 - f.fractionBits + (f.minExponent - x.leadingExponent).toNat) hmagnitude.symm
      (by simp only [normalizedScale]; omega)
    have hwidth : fraction % Nat.pow 2 f.width = fraction :=
      Nat.mod_eq_of_lt (fraction_lt.trans_le (Nat.pow_le_pow_right Nat.two_pos
        ((Nat.le_add_right _ _).trans (Nat.le_succ _))))
    unfold fieldsOf
    dsimp only
    rw [if_neg hsmall, hplaces, hshift, hwidth,
      Format.assemble_eq_layout (Nat.two_pow_pos _) fraction_lt]
  | @normal field fraction field_pos field_lt fraction_lt =>
    have hmagnitude := signed_inj.1 hvalue
    have hlow : f.fractionBits + (field - 1 + f.leastPlace) ≤ x.leadingExponent := by
      rw [← two_zpow_le_abs_iff hx, abs_toRat, hmagnitude, Format.two_zpow_le_mul_iff]
      exact Nat.le_add_right _ _
    have hhigh : ¬((f.fractionBits + 1 : Nat) : Int) + (field - 1 + f.leastPlace) ≤
        x.leadingExponent := by
      rw [← two_zpow_le_abs_iff hx, abs_toRat, hmagnitude, Format.two_zpow_le_mul_iff, Nat.pow_succ]
      omega
    have hfield : (x.leadingExponent - f.minExponent + 1).toNat = field := by omega
    have hshift := normalizedSignificand_shiftRight (63 - f.fractionBits) hmagnitude.symm
      (by simp only [normalizedScale]; omega)
    have hmod : (2 ^ f.fractionBits + fraction) % Nat.pow 2 f.fractionBits = fraction :=
      (Nat.add_mod_left _ _).trans (Nat.mod_eq_of_lt fraction_lt)
    unfold fieldsOf
    dsimp only
    rw [if_pos (by omega), hfield, hshift, hmod,
      Format.assemble_eq_layout (field_lt.trans Format.specialField_lt) fraction_lt]

end Extended

/-! ## Rounding -/

/-- Some bits are the encoding of an exact value, rounded once to a format, and the exceptions are
those of that rounding. -/
inductive EncodesRounded (f : Format) (mode : Rounding) (x : ℚ) : Encoded → Prop
  /-- The rounded value is in the range of the format. -/
  | inRange {r : ℚ} {bits : Nat}
      (rounds : f.Rounds mode x r)
      (bounded : |r| < f.bound)
      (encodes : f.Encodes (x < 0) r bits) :
      EncodesRounded f mode x ⟨bits, roundingExceptions f x r⟩
  /-- It is beyond the range, and becomes infinite. -/
  | infinite {r : ℚ}
      (rounds : f.Rounds mode x r)
      (unbounded : f.bound ≤ |r|)
      (away : mode = .nearest ∨ mode.LeadsAway x) :
      EncodesRounded f mode x
        ⟨f.layout (x < 0) f.specialField 0, Exception.overflow ||| Exception.precision⟩
  /-- It is beyond the range, and becomes the largest number of the format. -/
  | largest {r : ℚ}
      (rounds : f.Rounds mode x r)
      (unbounded : f.bound ≤ |r|)
      (toward : ¬(mode = .nearest ∨ mode.LeadsAway x)) :
      EncodesRounded f mode x
        ⟨f.layout (x < 0) (f.specialField - 1) (2 ^ f.fractionBits - 1),
          Exception.overflow ||| Exception.precision⟩

namespace Extended

variable {f : Format} {mode : Rounding} {x : Extended} {bits : Nat}

/-- How a rounded result is written. -/
def written (f : Format) (x : Extended) (r : Rounded) : Encoded :=
  if r.value.isZero then ⟨f.assemble x.sign 0 0, r.exceptions⟩
  else if r.value.isInfinite then ⟨f.assemble x.sign f.specialField 0, r.exceptions⟩
  else ⟨fieldsOf f r.value, r.exceptions⟩

theorem encode_of_isFiniteNonzero (hx : x.isFiniteNonzero = true) :
    encode f mode x = written f x (roundTo f mode x.sign x.significand.toNat x.scale) := by
  unfold isFiniteNonzero at hx
  unfold encode
  split at hx
  next h => rw [h]; rfl
  next h => rw [h]; rfl
  next => cases hx

theorem written_of_encodes (hf : f.IsInterchange) {r : Rounded} (hfinite : r.value.IsFinite)
    (hsign : r.value.sign = x.sign) (h : f.Encodes r.value.sign r.value.toRat bits) :
    written f x r = ⟨bits, r.exceptions⟩ := by
  unfold written
  rcases hfinite with hzero | hnonzero
  · rw [toRat_of_isZero hzero] at h
    rw [if_pos hzero, h.eq_of_zero, hsign, Format.assemble_eq_layout] <;> positivity
  · obtain ⟨-, hinfinite, hzero⟩ := isFiniteNonzero_iff.1 hnonzero
    rw [hzero, hinfinite, if_neg Bool.false_ne_true, if_neg Bool.false_ne_true,
      fieldsOf_of_encodes hf hnonzero h]

/-- A number that a format holds in its range is written by an encoding of it. -/
theorem exists_encodes (hf : f.IsInterchange) (hx : f.Holds x.toRat)
    (hbound : |x.toRat| < f.bound) : ∃ bits, f.Encodes x.sign x.toRat bits := by
  rw [toRat_eq_signed_abs]
  exact Format.exists_encodes hf hx hbound x.sign

/-- A number is rounded correctly, unless it vanishes and should not. -/
theorem roundTo_roundsTo_toRat (hf : f.IsInterchange) (mode : Rounding)
    (hx : x.isFiniteNonzero = true)
    (haway : mode.LeadsAway x.toRat → 2 ^ (f.minExponent - 200) ≤ |x.toRat|) :
    RoundsTo f mode x.toRat (roundTo f mode x.sign x.significand.toNat x.scale) := by
  refine roundTo_exact_roundsTo hf.toFitsRegisters (significand_pos hx).ne'
    (x.significand.isLt.trans (by decide)) fun h => ?_
  have hnear := (two_zpow_le_abs_iff hx).1 (haway h)
  rw [leadingExponent] at hnear
  rw [depthLimit]
  omega

/-- A number is written as its value, rounded once to the format. -/
theorem encode_encodesRounded (hf : f.IsInterchange) (hx : x.isFiniteNonzero = true)
    (haway : mode.LeadsAway x.toRat → 2 ^ (f.minExponent - 200) ≤ |x.toRat|) :
    EncodesRounded f mode x.toRat (encode f mode x) := by
  have hsign : x.sign = decide (x.toRat < 0) := eq_decide_signed_neg _ (magnitude_pos hx)
  have hrounds := roundTo_roundsTo_toRat hf mode hx haway
  rw [encode_of_isFiniteNonzero hx]
  generalize roundTo f mode x.sign x.significand.toNat x.scale = result at hrounds ⊢
  cases hrounds with
  | @inRange r value rounds bounded finite toRat_eq sign_eq =>
    have hsame := (sign_eq (toRat_ne_zero hx)).trans hsign.symm
    rw [Rat.cast_id] at toRat_eq
    subst toRat_eq
    obtain ⟨bits, hbits⟩ := exists_encodes hf (Format.Rounds.holds rounds) bounded
    rw [written_of_encodes hf finite hsame hbits]
    rw [hsame, hsign] at hbits
    exact .inRange rounds bounded hbits
  | infinite rounds unbounded away =>
    have hwritten :
        written f x ⟨.infinity (x.toRat < 0), Exception.overflow ||| Exception.precision⟩ =
          ⟨f.layout (x.toRat < 0) f.specialField 0, Exception.overflow ||| Exception.precision⟩ := by
      rw [written, ← hsign, ← Format.assemble_eq_layout Format.specialField_lt (Nat.two_pow_pos _)]
      cases x.sign <;> rfl
    rw [hwritten]
    exact .infinite rounds unbounded away
  | @largest r value rounds unbounded toward finite sign_eq toRat_eq =>
    have hencodes : f.Encodes value.sign value.toRat
        (f.layout (x.toRat < 0) (f.specialField - 1) (2 ^ f.fractionBits - 1)) := by
      rw [toRat_eq_signed_abs value, toRat_eq, sign_eq]
      exact Format.encodes_largest hf _
    rw [written_of_encodes hf finite (sign_eq.trans hsign.symm) hencodes]
    exact .largest rounds unbounded toward

/-- A number is written to 64 or 32 bits as its value, rounded once.  This fails only far below the
normal numbers, in a direction of rounding that leads away from zero. -/
theorem encode_rounded (hf : f = .double ∨ f = .single) (hx : x.isFiniteNonzero = true)
    (haway : 2 ^ (f.minExponent - 200) ≤ |x.toRat| ∨ ¬mode.LeadsAway x.toRat) :
    EncodesRounded f mode x.toRat (encode f mode x) := by
  have hinterchange : f.IsInterchange := by
    rcases hf with rfl | rfl
    · exact Format.double_isInterchange
    · exact Format.single_isInterchange
  exact encode_encodesRounded hinterchange hx fun h => haway.resolve_right (not_not.2 h)

/-- A number just below the normal ones of 32 bits becomes the least of these, and underflows. -/
theorem encode_rounded_leastNormal :
    (Format.single = .double ∨ Format.single = .single) ∧
      isFiniteNonzero ⟨false, 0x3F80, 0xFFFFFFFFFFFFFFFF⟩ = true ∧
      (2 ^ (Format.single.minExponent - 200) ≤ |toRat ⟨false, 0x3F80, 0xFFFFFFFFFFFFFFFF⟩| ∨
        ¬Rounding.nearest.LeadsAway (toRat ⟨false, 0x3F80, 0xFFFFFFFFFFFFFFFF⟩)) ∧
      EncodesRounded .single .nearest (toRat ⟨false, 0x3F80, 0xFFFFFFFFFFFFFFFF⟩)
        ⟨0x00800000, Exception.precision ||| Exception.underflow⟩ :=
  have hfinite : isFiniteNonzero ⟨false, 0x3F80, 0xFFFFFFFFFFFFFFFF⟩ = true := by decide
  have haway : 2 ^ (Format.single.minExponent - 200) ≤
      |toRat ⟨false, 0x3F80, 0xFFFFFFFFFFFFFFFF⟩| ∨
        ¬Rounding.nearest.LeadsAway (toRat ⟨false, 0x3F80, 0xFFFFFFFFFFFFFFFF⟩) :=
    .inr (by rintro (⟨h, -⟩ | ⟨h, -⟩) <;> cases h)
  ⟨.inr rfl, hfinite, haway, encode_rounded (.inr rfl) hfinite haway⟩

end Extended

end Ia32
