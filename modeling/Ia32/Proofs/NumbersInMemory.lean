import Ia32.Instr.Fpu.Transfer
import Ia32.Proofs.InterchangeFormats

/-!
# Numbers in memory

A format of memory has fewer bits than a register, so a number is widened when it
is loaded and narrowed when it is stored.  The two cancel out.  Bits with a field
of finite numbers encode what is read from them (`Extended.decode_encodes`), and a
number that a format encodes is written by that encoding, at every rounding and
without an exception (`Extended.encode_of_encodes`).  A NaN keeps its fraction, and
one that signals becomes quiet in between (`Extended.encode_quiet_decode`).
Integers and numbers with the format of the registers are kept as they are.

`NumberFormat.writes_pushed` says this of all formats at once.  What is pushed for
some bytes is stored as `NumberFormat.copied` of them.
-/

namespace Ia32

/-! ## Reading -/

namespace Format

variable {f : Format} {sign : Bool} {x : ℚ} {bits : Nat}

/-- The sign, the exponent field and the fraction of some bits. -/
theorem layout_fields (hbits : bits < 2 ^ (f.fractionBits + f.exponentBits + 1)) :
    f.layout (bits.testBit (f.fractionBits + f.exponentBits)) (Extended.fieldOf f bits)
      (bits % 2 ^ f.fractionBits) = bits := by
  have hsign : (bits.testBit (f.fractionBits + f.exponentBits)).toNat =
      bits / 2 ^ f.fractionBits / 2 ^ f.exponentBits := by
    rw [Nat.toNat_testBit, Nat.div_div_eq_div_mul, ← Nat.pow_add]
    apply Nat.mod_eq_of_lt
    rw [Nat.div_lt_iff_lt_mul (Nat.two_pow_pos _), ← Nat.pow_succ']
    exact hbits
  have hfield : Extended.fieldOf f bits = bits / 2 ^ f.fractionBits % 2 ^ f.exponentBits := by
    rw [Extended.fieldOf, Nat.shiftRight_eq_div_pow]
    rfl
  rw [layout, hsign, hfield, Nat.div_add_mod', Nat.div_add_mod']

/-- What is encoded is a significand of the format, at an exponent in its range. -/
theorem Encodes.exists_magnitude (hf : f.IsInterchange) (h : f.Encodes sign x bits) :
    ∃ (n : Nat) (k : Int), n < 2 ^ f.precision ∧ f.leastPlace ≤ k ∧
      f.precision + k ≤ f.maxExponent + 1 ∧ x = signed sign ((n : ℚ) * 2 ^ k) := by
  have hprecision := fractionBits_add_one hf
  have hmin := minExponent_eq hf
  have hfields := hf.fields
  have hlt := hf.minExponent_lt
  have hspecial : f.specialField = 2 ^ f.exponentBits - 1 := rfl
  cases h with
  | subnormal fraction_lt =>
    refine ⟨_, _, fraction_lt.trans ?_, le_rfl, by omega, rfl⟩
    rw [← hprecision]
    exact Nat.pow_lt_pow_succ Nat.one_lt_two
  | normal field_pos field_lt fraction_lt =>
    refine ⟨_, _, ?_, by omega, by omega, rfl⟩
    rw [← hprecision, Nat.pow_succ]
    omega

theorem Encodes.holds (hf : f.IsInterchange) (h : f.Encodes sign x bits) : f.Holds x := by
  obtain ⟨n, k, hn, hk, -, rfl⟩ := h.exists_magnitude hf
  have hheld := holds_natCast_mul (K := ℚ) hn hk
  cases sign with
  | false => exact hheld
  | true => exact hheld.neg

theorem Encodes.abs_lt_bound (hf : f.IsInterchange) (h : f.Encodes sign x bits) :
    |x| < f.bound := by
  obtain ⟨n, k, hn, -, hk, rfl⟩ := h.exists_magnitude hf
  rw [abs_signed (by positivity)]
  exact (mul_lt_two_zpow_iff.2 hn).trans_le (zpow_le_zpow_right₀ one_le_two hk)

/-- What is encoded is zero or not below the least number. -/
theorem Encodes.le_abs (hf : f.IsInterchange) (h : f.Encodes sign x bits) (hx : x ≠ 0) :
    2 ^ f.leastPlace ≤ |x| := by
  obtain ⟨n, k, -, hk, -, rfl⟩ := h.exists_magnitude hf
  have hn : n ≠ 0 := by
    rintro rfl
    exact hx (by rw [Nat.cast_zero, zero_mul, signed_zero])
  rw [abs_signed (by positivity), two_zpow_le_iff hn]
  omega

end Format

namespace Extended

variable {f : Format} {mode : Rounding} {x : Extended} {bits : Nat}

theorem classify_of_isZero (h : x.isZero = true) : x.classify = .zero := by
  simp only [isZero, Bool.and_eq_true, beq_iff_eq] at h
  unfold classify
  rw [h.1, h.2]
  rfl

/-- A number that a format encodes is written as that, and nothing is raised. -/
theorem encode_of_encodes (hf : f.IsInterchange) (mode : Rounding) (hx : x.IsFinite)
    (h : f.Encodes x.sign x.toRat bits) : encode f mode x = ⟨bits, 0⟩ := by
  rcases hx with hzero | hnonzero
  · rw [toRat_of_isZero hzero] at h
    have hclass : x.classify = .zero := classify_of_isZero hzero
    rw [encode, hclass, h.eq_of_zero, Format.assemble_eq_layout] <;> positivity
  · have hrounds := roundTo_roundsTo_toRat hf mode hnonzero fun _ => by
      refine le_trans (zpow_le_zpow_right₀ one_le_two ?_) (h.le_abs hf (toRat_ne_zero hnonzero))
      have hp := hf.precision_le
      rw [Format.leastPlace]
      omega
    rw [encode_of_isFiniteNonzero hnonzero]
    generalize roundTo f mode x.sign x.significand.toNat x.scale = result at hrounds ⊢
    have hbound := h.abs_lt_bound hf
    cases hrounds with
    | @inRange r value rounds bounded finite toRat_eq sign_eq =>
      obtain rfl := Format.Rounds.eq_of_holds rounds (h.holds hf)
      rw [Rat.cast_id] at toRat_eq
      have hsign : value.sign = x.sign :=
        (sign_eq (toRat_ne_zero hnonzero)).trans
          (eq_decide_signed_neg _ (magnitude_pos hnonzero)).symm
      rw [← toRat_eq, ← hsign] at h
      rw [written_of_encodes hf finite hsign h, roundingExceptions, if_pos rfl]
    | infinite rounds unbounded =>
      rw [Format.Rounds.eq_of_holds rounds (h.holds hf)] at unbounded
      exact absurd hbound unbounded.not_gt
    | largest rounds unbounded =>
      rw [Format.Rounds.eq_of_holds rounds (h.holds hf)] at unbounded
      exact absurd hbound unbounded.not_gt

theorem fieldOf_lt (f : Format) (bits : Nat) : fieldOf f bits < 2 ^ f.exponentBits :=
  Nat.mod_lt _ (Nat.two_pow_pos _)

theorem fraction_lt (f : Format) (bits : Nat) : bits % 2 ^ f.fractionBits < 2 ^ f.fractionBits :=
  Nat.mod_lt _ (Nat.two_pow_pos _)

theorem shiftLeft_fraction_lt (hf : f.IsInterchange) {fraction : Nat}
    (hfraction : fraction < 2 ^ f.fractionBits) : fraction <<< (63 - f.fractionBits) < 2 ^ 63 := by
  have hprecision := Format.fractionBits_add_one hf
  have hle := hf.precision_le
  rw [Nat.shiftLeft_eq]
  calc fraction * 2 ^ (63 - f.fractionBits)
    _ < 2 ^ f.fractionBits * 2 ^ (63 - f.fractionBits) :=
      Nat.mul_lt_mul_of_pos_right hfraction (Nat.two_pow_pos _)
    _ = 2 ^ 63 := by
      rw [← Nat.pow_add]
      congr 1
      omega

/-- A fraction in a register stands below the top bit. -/
theorem toNat_aligned (hf : f.IsInterchange) {fraction : Nat}
    (hfraction : fraction < 2 ^ f.fractionBits) :
    (integerBit ||| BitVec.ofNat 64 (fraction <<< (63 - f.fractionBits))).toNat =
      2 ^ 63 + fraction <<< (63 - f.fractionBits) := by
  have hshift := shiftLeft_fraction_lt hf hfraction
  rw [BitVec.toNat_or, BitVec.toNat_ofNat, Nat.mod_eq_of_lt (hshift.trans (by decide))]
  exact (Nat.two_pow_add_eq_or_of_lt hshift 1).symm

/-- The significand of a normal number, in the format and in a register. -/
theorem shiftLeft_significand (hf : f.IsInterchange) (fraction : Nat) :
    (2 ^ f.fractionBits + fraction) <<< (63 - f.fractionBits) =
      2 ^ 63 + fraction <<< (63 - f.fractionBits) := by
  have hprecision := Format.fractionBits_add_one hf
  have hle := hf.precision_le
  rw [Nat.shiftLeft_eq, Nat.add_mul, ← Nat.pow_add, Nat.shiftLeft_eq,
    show f.fractionBits + (63 - f.fractionBits) = 63 by omega]

/-- The bits of a finite number encode what is read from them. -/
theorem decode_encodes (hf : f.IsInterchange)
    (hbits : bits < 2 ^ (f.fractionBits + f.exponentBits + 1))
    (hfield : fieldOf f bits ≠ f.specialField) :
    (decode f bits).IsFinite ∧ f.Encodes (decode f bits).sign (decode f bits).toRat bits := by
  have hlayout := Format.layout_fields hbits
  have hfraction := fraction_lt f bits
  have hlt := fieldOf_lt f bits
  have hmin := Format.minExponent_eq hf
  have hprecision := Format.fractionBits_add_one hf
  obtain ⟨⟨hp, hp', hlow, hrange, hhigh⟩, hfields⟩ := id hf
  unfold decode
  dsimp only
  rw [if_neg hfield]
  change (ite _ (ofExact _ (bits % 2 ^ f.fractionBits) _) _).IsFinite ∧ _
  generalize bits.testBit (f.fractionBits + f.exponentBits) = sign at hlayout ⊢
  generalize bits % 2 ^ f.fractionBits = fraction at *
  split
  next hzero =>
    rw [hzero] at hlayout
    have hone :
        2 ^ (Format.extended.leastPlace - (f.minExponent - f.fractionBits)).toNat ∣ fraction := by
      rw [Int.toNat_of_nonpos]
      · exact one_dvd _
      · simp only [Format.leastPlace, Format.extended]
        omega
    have hlog (hn : fraction ≠ 0) : f.minExponent - f.fractionBits + fraction.log2 ≤ 16383 := by
      have := (Nat.log2_lt hn).2 hfraction
      omega
    have hbits64 : fraction < 2 ^ 64 :=
      hfraction.trans_le (Nat.pow_le_pow_right Nat.two_pos (by omega))
    obtain ⟨hfinite, -, hvalue⟩ := ofExact_multiple_spec sign hbits64 hone hlog
    refine ⟨hfinite, ?_⟩
    rw [hvalue, sign_ofExact, ← hlayout, hmin, add_sub_cancel_left]
    exact .subnormal hfraction
  next hnonzero =>
    have hspecial : f.specialField = 2 ^ f.exponentBits - 1 := rfl
    have hbias : bias = 16383 := rfl
    have haligned := toNat_aligned hf hfraction
    have hshift := shiftLeft_fraction_lt hf hfraction
    obtain ⟨hfinite, hvalue⟩ := normal_spec sign
      (e := fieldOf f bits - 1 + f.minExponent + bias)
      (n := 2 ^ 63 + fraction <<< (63 - f.fractionBits)) (by omega) (by omega)
      (Nat.le_add_right _ _) (by omega)
    rw [← haligned, BitVec.ofNat_toNat, BitVec.setWidth_eq] at hfinite hvalue
    refine ⟨hfinite, ?_⟩
    have hplace : fieldOf f bits - 1 + f.minExponent + bias - 16383 - 63 =
      fieldOf f bits - 1 + f.leastPlace - (63 - f.fractionBits : Nat) := by omega
    have hmove := shift_mul (K := ℚ) (n := 2 ^ f.fractionBits + fraction)
      (show fieldOf f bits - 1 + f.leastPlace - (63 - f.fractionBits : Nat) ≤
        fieldOf f bits - 1 + f.leastPlace by omega)
    rw [sub_sub_cancel, shift, if_pos (Int.natCast_nonneg _), Int.toNat_natCast] at hmove
    rw [hvalue, haligned, ← shiftLeft_significand hf, hplace, hmove]
    have henc : f.Encodes sign _ _ := .normal (Nat.pos_of_ne_zero hnonzero) (by omega) hfraction
    rwa [hlayout] at henc

end Extended

/-! ## NaNs -/

/-- Some bits are a NaN that signals. -/
def Format.IsSignaling (f : Format) (bits : Nat) : Prop :=
  Extended.fieldOf f bits = f.specialField ∧ bits % 2 ^ f.fractionBits ≠ 0 ∧
    bits.testBit (f.fractionBits - 1) = false

instance (f : Format) (bits : Nat) : Decidable (f.IsSignaling bits) :=
  inferInstanceAs (Decidable (_ ∧ _ ∧ _))

namespace Extended

variable {f : Format} {mode : Rounding} {sign : Bool} {fraction bits : Nat}

/-- A NaN with a fraction. -/
def nan (f : Format) (sign : Bool) (fraction : Nat) : Extended :=
  ⟨sign, specialExponent, integerBit ||| BitVec.ofNat 64 (fraction <<< (63 - f.fractionBits))⟩

theorem and_quietBit_ne_zero_iff (x : Qword) : x &&& quietBit ≠ 0 ↔ x.getLsbD 62 = true := by
  have hbit : quietBit = BitVec.twoPow 64 62 := by decide
  rw [hbit]
  exact and_twoPow_ne_zero_iff (by decide) x

theorem getLsbD_aligned (hf : f.IsInterchange) (fraction : Nat) :
    (integerBit ||| BitVec.ofNat 64 (fraction <<< (63 - f.fractionBits))).getLsbD 62 =
      fraction.testBit (f.fractionBits - 1) := by
  have hprecision := Format.fractionBits_add_one hf
  have hp := hf.two_le_precision
  have hp' := hf.precision_le
  have hbit : integerBit.getLsbD 62 = false := by decide
  rw [BitVec.getLsbD_or, hbit, Bool.false_or, BitVec.getLsbD_ofNat, Nat.testBit_shiftLeft]
  rw [show 62 - (63 - f.fractionBits) = f.fractionBits - 1 by omega]
  simp only [show 62 ≥ 63 - f.fractionBits by omega]
  simp

theorem classify_nan (hf : f.IsInterchange) (sign : Bool)
    (hfraction : fraction < 2 ^ f.fractionBits) (hne : fraction ≠ 0) :
    (nan f sign fraction).classify =
      if fraction.testBit (f.fractionBits - 1) then .quietNan else .signalingNan := by
  have haligned := toNat_aligned hf hfraction
  have hlt := shiftLeft_fraction_lt hf hfraction
  have hpos : 0 < fraction <<< (63 - f.fractionBits) := by
    rw [Nat.shiftLeft_eq]
    exact Nat.mul_pos (Nat.pos_of_ne_zero hne) (Nat.two_pow_pos _)
  have hquiet :=
    (and_quietBit_ne_zero_iff _).trans (Bool.eq_iff_iff.1 (getLsbD_aligned hf fraction))
  unfold nan
  generalize integerBit ||| BitVec.ofNat 64 (fraction <<< (63 - f.fractionBits)) = s at *
  have hinteger : s &&& integerBit ≠ 0 := by
    rw [and_integerBit_ne_zero_iff]
    omega
  have hfinite : s <<< 1 ≠ 0 := by
    intro hzero
    have := congrArg BitVec.toNat hzero
    rw [BitVec.toNat_shiftLeft, Nat.shiftLeft_eq] at this
    change s.toNat * 2 ^ 1 % 2 ^ 64 = 0 at this
    omega
  unfold classify
  dsimp only
  rw [if_pos rfl, bne_iff_ne.2 hinteger, Bool.not_true, if_neg Bool.false_ne_true, if_neg hfinite]
  simp only [bne_iff_ne, hquiet]

/-- A NaN becomes quiet in its fraction. -/
theorem quiet_nan (hf : f.IsInterchange) (sign : Bool) (hfraction : fraction < 2 ^ f.fractionBits)
    (hne : fraction ≠ 0) :
    (nan f sign fraction).quiet = nan f sign (fraction ||| f.quietFraction) := by
  have hprecision := Format.fractionBits_add_one hf
  have hp := hf.two_le_precision
  have hp' := hf.precision_le
  have hclass : (nan f sign fraction).classify ≠ .unsupported := by
    rw [classify_nan hf sign hfraction hne]
    split <;> decide
  have hbit : BitVec.ofNat 64 (f.quietFraction <<< (63 - f.fractionBits)) = quietBit := by
    rw [Format.quietFraction, Nat.shiftLeft_eq]
    change BitVec.ofNat 64 (2 ^ (f.fractionBits - 1) * 2 ^ (63 - f.fractionBits)) = quietBit
    rw [← Nat.pow_add, show f.fractionBits - 1 + (63 - f.fractionBits) = 62 by omega]
    rfl
  rw [quiet, if_neg hclass, nan, nan, Nat.shiftLeft_or_distrib, BitVec.ofNat_or, hbit,
    BitVec.or_assoc]

theorem payload_nan (hf : f.IsInterchange) (sign : Bool)
    (hfraction : fraction < 2 ^ f.fractionBits) :
    shift (nan f sign fraction).significand.toNat (f.fractionBits - 63) % Nat.pow 2 f.fractionBits =
      fraction := by
  have hprecision := Format.fractionBits_add_one hf
  have hp' := hf.precision_le
  rw [nan, toNat_aligned hf hfraction, ← shiftLeft_significand hf, shift_shiftLeft,
    show (f.fractionBits : Int) - 63 + (63 - f.fractionBits : Nat) = 0 by omega]
  exact (Nat.add_mod_left _ _).trans (Nat.mod_eq_of_lt hfraction)

theorem or_quietFraction (h : fraction.testBit (f.fractionBits - 1) = true) :
    fraction ||| f.quietFraction = fraction := by
  apply Nat.eq_of_testBit_eq
  intro i
  change (fraction ||| 2 ^ (f.fractionBits - 1)).testBit i = _
  rw [Nat.testBit_or, Nat.testBit_two_pow]
  by_cases hi : f.fractionBits - 1 = i
  · rw [← hi, h, Bool.true_or]
  · rw [decide_eq_false hi, Bool.or_false]

/-- A quiet NaN is written with its fraction. -/
theorem encode_nan (hf : f.IsInterchange) (mode : Rounding) (sign : Bool)
    (hfraction : fraction < 2 ^ f.fractionBits)
    (hquiet : fraction.testBit (f.fractionBits - 1) = true) :
    encode f mode (nan f sign fraction) = ⟨f.layout sign f.specialField fraction, 0⟩ := by
  have hne : fraction ≠ 0 := by
    rintro rfl
    simp at hquiet
  have hclass := classify_nan hf sign hfraction hne
  rw [hquiet, if_pos rfl] at hclass
  rw [encode, hclass]
  dsimp only
  rw [payload_nan hf sign hfraction, or_quietFraction hquiet,
    Format.assemble_eq_layout Format.specialField_lt hfraction]
  rfl

/-- What is read from the bits of a NaN. -/
theorem decode_nan (hfield : fieldOf f bits = f.specialField)
    (hne : bits % 2 ^ f.fractionBits ≠ 0) :
    decode f bits =
      nan f (bits.testBit (f.fractionBits + f.exponentBits)) (bits % 2 ^ f.fractionBits) := by
  have hne' : bits % Nat.pow 2 f.fractionBits ≠ 0 := hne
  unfold decode
  dsimp only
  rw [if_pos hfield, if_neg hne']
  rfl

theorem decode_infinity (hfield : fieldOf f bits = f.specialField)
    (hzero : bits % 2 ^ f.fractionBits = 0) :
    decode f bits = infinity (bits.testBit (f.fractionBits + f.exponentBits)) := by
  have hzero' : bits % Nat.pow 2 f.fractionBits = 0 := hzero
  unfold decode
  dsimp only
  rw [if_pos hfield, if_pos hzero']

theorem encode_infinity (f : Format) (mode : Rounding) (sign : Bool) :
    encode f mode (infinity sign) = ⟨f.layout sign f.specialField 0, 0⟩ := by
  rw [← Format.assemble_eq_layout Format.specialField_lt (Nat.two_pow_pos _)]
  cases sign <;> rfl

theorem isSignaling_of_isNan_eq_false {x : Extended} (h : x.isNan = false) :
    x.isSignaling = false := by
  unfold isNan at h
  unfold isSignaling
  cases hclass : x.classify <;> simp_all

theorem testBit_fraction (hf : f.IsInterchange) (bits : Nat) :
    (bits % 2 ^ f.fractionBits).testBit (f.fractionBits - 1) =
      bits.testBit (f.fractionBits - 1) := by
  have hprecision := Format.fractionBits_add_one hf
  have hp := hf.two_le_precision
  rw [Nat.testBit_mod_two_pow, decide_eq_true (by omega), Bool.true_and]

/-- A number that is read signals when its bits do. -/
theorem isSignaling_decode (hf : f.IsInterchange)
    (hbits : bits < 2 ^ (f.fractionBits + f.exponentBits + 1)) :
    (decode f bits).isSignaling = true ↔ f.IsSignaling bits := by
  by_cases hfield : fieldOf f bits = f.specialField
  · by_cases hzero : bits % 2 ^ f.fractionBits = 0
    · rw [decode_infinity hfield hzero]
      refine iff_of_false ?_ fun h => h.2.1 hzero
      cases bits.testBit (f.fractionBits + f.exponentBits) <;> decide
    · have hclass := classify_nan hf (bits.testBit (f.fractionBits + f.exponentBits))
        (fraction_lt f bits) hzero
      rw [testBit_fraction hf] at hclass
      rw [decode_nan hfield hzero, isSignaling, hclass]
      cases hquiet : bits.testBit (f.fractionBits - 1) with
      | false => exact iff_of_true rfl ⟨hfield, hzero, hquiet⟩
      | true => exact iff_of_false Bool.false_ne_true fun h => nomatch hquiet.symm.trans h.2.2
  · have hnan := (isFinite_iff.1 (decode_encodes hf hbits hfield).1).1
    rw [isSignaling_of_isNan_eq_false hnan]
    exact iff_of_false Bool.false_ne_true fun h => hfield h.1

/-- Bits that do not signal are read and written without a change. -/
theorem encode_decode (hf : f.IsInterchange) (mode : Rounding)
    (hbits : bits < 2 ^ (f.fractionBits + f.exponentBits + 1)) (h : ¬f.IsSignaling bits) :
    encode f mode (decode f bits) = ⟨bits, 0⟩ := by
  have hlayout := Format.layout_fields hbits
  by_cases hfield : fieldOf f bits = f.specialField
  · rw [hfield] at hlayout
    by_cases hzero : bits % 2 ^ f.fractionBits = 0
    · rw [hzero] at hlayout
      rw [decode_infinity hfield hzero, encode_infinity, hlayout]
    · have hquiet : (bits % 2 ^ f.fractionBits).testBit (f.fractionBits - 1) = true := by
        rw [testBit_fraction hf, ← Bool.not_eq_false]
        exact fun hsignaling => h ⟨hfield, hzero, hsignaling⟩
      rw [decode_nan hfield hzero, encode_nan hf mode _ (fraction_lt f bits) hquiet, hlayout]
  · obtain ⟨hfinite, hencodes⟩ := decode_encodes hf hbits hfield
    exact encode_of_encodes hf mode hfinite hencodes

/-- Bits that signal come back with the quiet bit. -/
theorem encode_quiet_decode (hf : f.IsInterchange) (mode : Rounding)
    (hbits : bits < 2 ^ (f.fractionBits + f.exponentBits + 1)) (h : f.IsSignaling bits) :
    encode f mode (decode f bits).quiet = ⟨bits ||| f.quietFraction, 0⟩ := by
  have hlayout := Format.layout_fields hbits
  obtain ⟨hfield, hzero, -⟩ := h
  have hfraction := fraction_lt f bits
  rw [hfield, ← Format.assemble_eq_layout Format.specialField_lt hfraction] at hlayout
  have hlt : f.quietFraction < 2 ^ f.fractionBits :=
    Nat.pow_lt_pow_right Nat.one_lt_two (Nat.sub_lt (Format.fractionBits_pos hf) Nat.one_pos)
  have hquieted : bits % 2 ^ f.fractionBits ||| f.quietFraction < 2 ^ f.fractionBits :=
    Nat.or_lt_two_pow hfraction hlt
  have hquiet :
      (bits % 2 ^ f.fractionBits ||| f.quietFraction).testBit (f.fractionBits - 1) = true := by
    rw [Nat.testBit_or, Format.quietFraction]
    change (_ || (2 ^ (f.fractionBits - 1)).testBit (f.fractionBits - 1)) = true
    rw [Nat.testBit_two_pow_self, Bool.or_true]
  rw [decode_nan hfield hzero, quiet_nan hf _ hfraction hzero, encode_nan hf mode _ hquieted hquiet,
    ← Format.assemble_eq_layout Format.specialField_lt hquieted, Format.assemble, ← Nat.or_assoc]
  exact congrArg (fun n => Encoded.mk (n ||| f.quietFraction) 0) hlayout

end Extended

/-! ## Integers -/

namespace Extended

variable {n : Int}

theorem ofInt_spec (hn : n.natAbs ≤ 2 ^ 64) : (ofInt n).IsFinite ∧ (ofInt n).toRat = n := by
  obtain ⟨hfinite, hvalue⟩ := ofExact_zero_spec (decide (n < 0)) hn
  rw [signed_natAbs] at hvalue
  exact ⟨hfinite, hvalue⟩

/-- An integer that is loaded is stored as what it is. -/
theorem toInt?_ofInt (mode : Rounding) (hn : |n| < 2 ^ 64) :
    (ofInt n).toInt? mode = (some n, false) := by
  have hbits : n.natAbs ≤ 2 ^ 64 := by
    rw [Int.abs_eq_natAbs] at hn
    exact_mod_cast hn.le
  obtain ⟨hfinite, hvalue⟩ := ofInt_spec hbits
  rw [toInt?_eq mode hfinite, roundToIntegral_of_eq_int mode hvalue, hvalue,
    Rounding.toInteger_intCast, if_pos hn]

end Extended

theorem IntFormat.bytes_le (format : IntFormat) : 1 ≤ format.bytes ∧ format.bytes ≤ 8 := by
  cases format <;> decide

theorem IntFormat.least_eq (format : IntFormat) : format.least = -2 ^ (8 * format.bytes - 1) := rfl

/-- The numbers with so many bits fit the format. -/
theorem IntFormat.fits_toInt (format : IntFormat) (x : BitVec (8 * format.bytes)) :
    format.fits x.toInt = true ∧ |x.toInt| < 2 ^ 64 := by
  have hlow := BitVec.le_toInt x
  have hhigh := BitVec.toInt_lt (x := x)
  have hle : (2 : Int) ^ (8 * format.bytes - 1) ≤ 2 ^ 63 :=
    pow_le_pow_right₀ (by norm_num) (by have := format.bytes_le; omega)
  rw [← least_eq] at hlow
  constructor
  · rw [fits, Bool.and_eq_true, decide_eq_true_eq, decide_eq_true_eq]
    refine ⟨hlow, hhigh.trans_eq ?_⟩
    rw [least_eq, neg_neg]
  · rw [least_eq] at hlow
    rw [abs_lt]
    omega

/-! ## Formats of memory -/

namespace NumberFormat

/-- The format whose fields a number in memory has, if it has some of the kind that is rounded. -/
def interchange? : NumberFormat → Option Format
  | .real .single => some .single
  | .real .double => some .double
  | .real .extended | .int _ => none

/-- The bytes that become of a number when it is loaded and stored again: the same ones, but for
the quiet bit of a NaN that signals. -/
def copied (format : NumberFormat) (bytes : List Byte) : List Byte :=
  match format.interchange? with
  | some f =>
    if f.IsSignaling (littleEndian bytes) then
      bytesOf bytes.length (littleEndian bytes ||| f.quietFraction)
    else bytes
  | none => bytes

/-- The exceptions that a load raises. -/
def loadExceptions (format : NumberFormat) (bytes : List Byte) : Word :=
  match format.interchange? with
  | some f =>
    if f.IsSignaling (littleEndian bytes) then Exception.invalid
    else if Extended.isSubnormal f (littleEndian bytes) then Exception.denormal
    else 0
  | none => 0

end NumberFormat

open FloatExec

/-- Whether a number that is loaded becomes quiet. -/
def FloatExec.Loaded.signals (loaded : Loaded) (format : NumberFormat) : Bool :=
  format ≠ .real .extended && loaded.value.isSignaling

/-- What a load pushes. -/
def FloatExec.Loaded.pushed (loaded : Loaded) (format : NumberFormat) : Extended :=
  if loaded.signals format then loaded.value.quiet else loaded.value

/-- A number is stored as some bytes, and nothing is raised. -/
def NumberFormat.Writes (format : NumberFormat) (mode : Rounding) (x : Extended)
    (bytes : List Byte) : Prop :=
  match format with
  | .real format => Stored.ofReal format mode x = ⟨bytes, 0⟩
  | .int format => ∃ n, x.toInt? mode = (some n, false) ∧ format.fits n = true ∧
      bytesOf format.bytes (BitVec.ofInt (8 * format.bytes) n).toNat = bytes

namespace NumberFormat

variable {format : NumberFormat} {f : Format} {bytes : List Byte}

theorem isInterchange_of_interchange? (h : format.interchange? = some f) : f.IsInterchange := by
  cases format with
  | real format =>
    cases format with
    | single => cases h; exact Format.single_isInterchange
    | double => cases h; exact Format.double_isInterchange
    | extended => cases h
  | int => cases h

/-- The bytes of a format hold its bits. -/
theorem littleEndian_lt_of_interchange? (h : format.interchange? = some f)
    (hlen : bytes.length = format.bytes) :
    littleEndian bytes < 2 ^ (f.fractionBits + f.exponentBits + 1) := by
  have hlt := littleEndian_lt bytes
  rw [hlen] at hlt
  cases format with
  | real format =>
    cases format with
    | single => cases h; exact hlt
    | double => cases h; exact hlt
    | extended => cases h
  | int => cases h

/-- What is read in such a format. -/
theorem ofBytes_of_interchange? (h : format.interchange? = some f) :
    Loaded.ofBytes format bytes =
      ⟨.decode f (littleEndian bytes), Extended.isSubnormal f (littleEndian bytes)⟩ := by
  cases format with
  | real format => cases format <;> cases h <;> rfl
  | int => cases h

theorem length_copied (format : NumberFormat) (bytes : List Byte) :
    (format.copied bytes).length = bytes.length := by
  unfold copied
  split
  next f _ =>
    by_cases hsignals : f.IsSignaling (littleEndian bytes)
    · rw [if_pos hsignals, length_bytesOf]
    · rw [if_neg hsignals]
  next => rfl

theorem writes_of_interchange? (h : format.interchange? = some f) {mode : Rounding} {x : Extended}
    {bits : Nat} (hx : x.encode f mode = ⟨bits, 0⟩) :
    format.Writes mode x (bytesOf format.bytes bits) := by
  cases format with
  | real format =>
    cases format with
    | single => cases h; simp only [Writes, Stored.ofReal, hx]; rfl
    | double => cases h; simp only [Writes, Stored.ofReal, hx]; rfl
    | extended => cases h
  | int => cases h

theorem signals_of_interchange? (h : format.interchange? = some f)
    (hlen : bytes.length = format.bytes) :
    (Loaded.ofBytes format bytes).signals format = true ↔ f.IsSignaling (littleEndian bytes) := by
  have hne : format ≠ .real .extended := by
    rintro rfl
    cases h
  rw [ofBytes_of_interchange? h, Loaded.signals, decide_eq_true hne, Bool.true_and]
  exact Extended.isSignaling_decode (isInterchange_of_interchange? h)
    (littleEndian_lt_of_interchange? h hlen)

/-- The integers of a format are loaded as what they are. -/
theorem ofBytes_int (format : IntFormat) (bytes : List Byte) :
    (Loaded.ofBytes (.int format) bytes).signals (.int format) = false ∧
      (Loaded.ofBytes (.int format) bytes).value =
        .ofInt (BitVec.ofNat (8 * format.bytes) (littleEndian bytes)).toInt := by
  have hlt := (format.fits_toInt (BitVec.ofNat (8 * format.bytes) (littleEndian bytes))).2
  have hbits : (BitVec.ofNat (8 * format.bytes) (littleEndian bytes)).toInt.natAbs ≤ 2 ^ 64 := by
    rw [Int.abs_eq_natAbs] at hlt
    exact_mod_cast hlt.le
  refine ⟨?_, rfl⟩
  rw [Loaded.signals, Loaded.ofBytes, Extended.isSignaling_of_isNan_eq_false, Bool.and_false]
  exact (Extended.isFinite_iff.1 (Extended.ofInt_spec hbits).1).1

/-- A number in memory is loaded and stored as what it is. -/
theorem writes_pushed (mode : Rounding) (hlen : bytes.length = format.bytes) :
    format.Writes mode ((Loaded.ofBytes format bytes).pushed format) (format.copied bytes) := by
  cases h : format.interchange? with
  | some f =>
    have hf := isInterchange_of_interchange? h
    have hbits := littleEndian_lt_of_interchange? h hlen
    have hsignals := signals_of_interchange? h hlen
    have hvalue : (Loaded.ofBytes format bytes).value = .decode f (littleEndian bytes) :=
      congrArg Loaded.value (ofBytes_of_interchange? h)
    simp only [copied, h, Loaded.pushed, hsignals, hvalue]
    split
    next hs =>
      rw [hlen]
      exact writes_of_interchange? h (Extended.encode_quiet_decode hf mode hbits hs)
    next hs =>
      have hwrites := writes_of_interchange? h (Extended.encode_decode hf mode hbits hs)
      rwa [← hlen, bytesOf_littleEndian] at hwrites
  | none =>
    have hcopied : format.copied bytes = bytes := by simp only [copied, h]
    rw [hcopied]
    match format with
    | .real .extended =>
      have hbytes := Extended.toBytes_ofBytes hlen
      exact congrArg (Stored.mk · 0) hbytes
    | .int format =>
      obtain ⟨hsignals, hvalue⟩ := ofBytes_int format bytes
      obtain ⟨hfits, hlt⟩ :=
        format.fits_toInt (BitVec.ofNat (8 * format.bytes) (littleEndian bytes))
      have hbytes := bytesOf_ofNat_littleEndian bytes
      rw [Loaded.pushed, hsignals, if_neg Bool.false_ne_true, hvalue]
      refine ⟨_, Extended.toInt?_ofInt mode hlt, hfits, ?_⟩
      rw [BitVec.ofInt_toInt]
      rwa [hlen] at hbytes

/-- The exceptions of a load are those of what the bytes hold. -/
theorem loadExceptions_eq (hlen : bytes.length = format.bytes) :
    format.loadExceptions bytes =
      if (Loaded.ofBytes format bytes).signals format then Exception.invalid
      else if (Loaded.ofBytes format bytes).denormal then Exception.denormal else 0 := by
  cases h : format.interchange? with
  | some f =>
    have hsignals := signals_of_interchange? h hlen
    have hdenormal : (Loaded.ofBytes format bytes).denormal =
        Extended.isSubnormal f (littleEndian bytes) :=
      congrArg Loaded.denormal (ofBytes_of_interchange? h)
    simp only [loadExceptions, h, hsignals, hdenormal]
  | none =>
    simp only [loadExceptions, h]
    match format with
    | .real .extended => rfl
    | .int format => rw [(ofBytes_int format bytes).1]; rfl

end NumberFormat

end Ia32
