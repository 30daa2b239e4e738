import Mathlib.Algebra.Group.Nat.Defs
import Mathlib.Tactic.SplitIfs
import Ia32.Float.Operation

/-!
# Numbers that have an encoding

The ten bytes of a number leave fifteen bits to the exponent field.  A register
keeps the field in a word, which has one bit more.  This module shows that no
operation of the unit ever sets that bit: the operands have encodings, and so
has the result.

All results but a few constants are made by `ofExact`, most of them after
`roundTo`.  A result of `roundTo` is bounded by the format it rounds to, and the
ones that are not rounded are bounded by an operand.
-/

namespace Ia32

namespace Extended

/-- The exponent field has fifteen bits, so that ten bytes can hold the number. -/
def HasEncoding (x : Extended) : Prop := x.exponent ≤ specialExponent

instance (x : Extended) : Decidable x.HasEncoding := inferInstanceAs (Decidable (_ ≤ _))

/-! ## Bytes -/

/-- A word without its top bit does not change when that bit is masked. -/
theorem and_specialExponent {exponent : Word} (h : exponent ≤ specialExponent) :
    exponent &&& specialExponent = exponent := by
  have hlt : exponent.toNat < 2 ^ 15 := Nat.lt_succ_of_le h
  apply BitVec.eq_of_toNat_eq
  rw [BitVec.toNat_and]
  exact Nat.and_two_pow_sub_one_of_lt_two_pow hlt

/-- The ten bytes of a number that has an encoding give it back. -/
theorem ofBytes_toBytes {x : Extended} (h : x.HasEncoding) : ofBytes x.toBytes = x := by
  have hdrop : x.toBytes.drop 8 = bytesOf 2 x.signExponent.toNat := by
    rw [toBytes, List.drop_left' (length_bytesOf 8 _)]
  have htake : x.toBytes.take 8 = bytesOf 8 x.significand.toNat := by
    rw [toBytes, List.take_left' (length_bytesOf 8 _)]
  have hlow := and_specialExponent h
  have hmsb : x.exponent.msb = false := by
    rw [← hlow, BitVec.msb_and]
    exact Bool.and_false _
  unfold ofBytes
  rw [hdrop, htake, ofNat_littleEndian_bytesOf 2, ofNat_littleEndian_bytesOf 8]
  obtain ⟨sign, exponent, significand⟩ := x
  cases sign with
  | false => simpa [signExponent] using ⟨hmsb, hlow⟩
  | true =>
    have htop : (0x8000#16) &&& specialExponent = 0 := by decide
    have hset : (0x8000#16).msb = true := by decide
    simp [signExponent, BitVec.and_or_distrib_right, hlow, htop, hset]

/-- A word is its low bits with its top bit. -/
theorem signExponent_of_word (word : Word) :
    (word &&& specialExponent) ||| (if word.msb then 0x8000 else 0) = word := by
  have hlt := word.isLt
  have hmod : word.toNat % 2 ^ 15 < 2 ^ 15 := Nat.mod_lt _ (by decide)
  have hlow : (word &&& specialExponent).toNat = word.toNat % 2 ^ 15 := by
    rw [BitVec.toNat_and]
    exact Nat.and_two_pow_sub_one_eq_mod _ 15
  have hmsb := word.msb_eq_decide
  apply BitVec.eq_of_toNat_eq
  rw [BitVec.toNat_or, hlow]
  cases htop : word.msb with
  | false =>
    have hsmall : word.toNat < 2 ^ 15 := by simpa [htop] using hmsb
    change _ ||| 0 = _
    rw [Nat.or_zero, Nat.mod_eq_of_lt hsmall]
  | true =>
    have hlarge : 2 ^ 15 ≤ word.toNat := by simpa [htop] using hmsb
    change _ ||| 2 ^ 15 * 1 = _
    rw [Nat.or_comm, ← Nat.two_pow_add_eq_or_of_lt hmod 1]
    omega

/-- Ten bytes are those of the number that is read from them. -/
theorem toBytes_ofBytes {bytes : List Byte} (h : bytes.length = 10) :
    (ofBytes bytes).toBytes = bytes := by
  have hlow : (bytes.take 8).length = 8 := by rw [List.length_take, h]; rfl
  have hhigh : (bytes.drop 8).length = 2 := by rw [List.length_drop, h]
  have hsignificand := bytesOf_ofNat_littleEndian (bytes.take 8)
  have hword := bytesOf_ofNat_littleEndian (bytes.drop 8)
  rw [hlow] at hsignificand
  rw [hhigh] at hword
  rw [toBytes, signExponent, ofBytes]
  dsimp only
  rw [signExponent_of_word, hsignificand, hword, List.take_append_drop]

/-- Whatever ten bytes hold has an encoding. -/
theorem ofBytes_hasEncoding (bytes : List Byte) : (ofBytes bytes).HasEncoding := by
  change BitVec.toNat (_ &&& _) ≤ specialExponent.toNat
  rw [BitVec.toNat_and]
  exact Nat.and_le_right

/-! ## Constants and signs -/

@[simp] theorem zero_hasEncoding (sign : Bool) : (zero sign).HasEncoding := by
  cases sign <;> decide

@[simp] theorem infinity_hasEncoding (sign : Bool) : (infinity sign).HasEncoding := by
  cases sign <;> decide

@[simp] theorem indefinite_hasEncoding : indefinite.HasEncoding := by decide

@[simp] theorem one_hasEncoding : one.HasEncoding := by decide

@[simp] theorem neg_hasEncoding_iff (x : Extended) : x.neg.HasEncoding ↔ x.HasEncoding := Iff.rfl

@[simp] theorem abs_hasEncoding_iff (x : Extended) : x.abs.HasEncoding ↔ x.HasEncoding := Iff.rfl

/-- A NaN is made quiet in its significand, and an unsupported number becomes the indefinite
one. -/
theorem quiet_hasEncoding {x : Extended} (h : x.HasEncoding) : x.quiet.HasEncoding := by
  unfold quiet
  split
  · exact indefinite_hasEncoding
  · exact h

/-! ## Exact values -/

/-- The exponent of the top bit of a number that has an encoding. -/
theorem topExponent_le {x : Extended} (h : x.HasEncoding) : x.topExponent ≤ 16384 := by
  have hle : x.exponent.toNat ≤ 0x7FFF := h
  unfold topExponent
  split
  · decide
  · simp only [bias]
    omega

/-- A significand has 64 bits. -/
theorem log2_significand_le (x : Extended) : x.significand.toNat.log2 ≤ 63 := by
  by_cases hzero : x.significand.toNat = 0
  · simp [hzero]
  · exact Nat.le_of_lt_succ ((Nat.log2_lt hzero).2 x.significand.isLt)

theorem leadingExponent_le {x : Extended} (h : x.HasEncoding) : x.leadingExponent ≤ 16384 := by
  have htop := topExponent_le h
  have hlog := log2_significand_le x
  unfold leadingExponent scale
  omega

/-- A number whose leading one is not above the exponents of the registers has an encoding. -/
theorem ofExact_hasEncoding {sign : Bool} {significand : Nat} {scale : Int}
    (h : significand ≠ 0 → scale + significand.log2 ≤ 16384) :
    (ofExact sign significand scale).HasEncoding := by
  unfold ofExact
  dsimp only
  split_ifs with hzero hnormal
  · exact zero_hasEncoding sign
  · have hle := h hzero
    simp only [minExponent] at hnormal
    change (BitVec.ofInt 16 (scale + significand.log2 + bias)).toNat ≤ 0x7FFF
    rw [BitVec.toNat_ofInt]
    simp only [bias]
    omega
  · exact Nat.zero_le _

/-- The leading one of a number below a power of two. -/
theorem log2_le_of_lt {n k : Nat} (hn : n ≠ 0) (h : n < 2 ^ (k + 1)) : n.log2 ≤ k :=
  Nat.le_of_lt_succ ((Nat.log2_lt hn).2 h)

/-- An integer of at most 64 bits has an encoding. -/
theorem ofInt_hasEncoding {n : Int} (h : n.natAbs < 2 ^ 64) : (ofInt n).HasEncoding := by
  apply ofExact_hasEncoding
  intro hn
  have := log2_le_of_lt hn h
  omega

/-- A signed word has an encoding. -/
theorem ofInt_toInt_hasEncoding {w : Nat} (hw : w ≤ 64) (x : BitVec w) :
    (ofInt x.toInt).HasEncoding := by
  have hpow : (2 : Int) ^ w ≤ 2 ^ 64 := by
    exact_mod_cast Nat.pow_le_pow_right Nat.two_pos hw
  have hlt : 2 * x.toInt < 2 ^ w := BitVec.two_mul_toInt_lt
  have hle : -2 ^ w ≤ 2 * x.toInt := BitVec.le_two_mul_toInt
  apply ofInt_hasEncoding
  omega

end Extended

/-! ## Rounding -/

/-- The exponents of a format are among those of the registers. -/
def Format.IsRegisterRange (format : Format) : Prop := format.maxExponent ≤ 16383

instance (format : Format) : Decidable format.IsRegisterRange := inferInstanceAs (Decidable (_ ≤ _))

@[simp] theorem Format.extended_isRegisterRange : extended.IsRegisterRange := by decide

@[simp] theorem Format.double_isRegisterRange : double.IsRegisterRange := by decide

/-- The largest number of a format no wider than the registers is one of the registers. -/
theorem Format.largest_hasEncoding {format : Format} (h : format.IsRegisterRange) (sign : Bool) :
    (format.largest sign).HasEncoding := by
  apply Extended.ofExact_hasEncoding
  intro hn
  have hlog : (Nat.pow 2 format.precision - 1).log2 < format.precision :=
    (Nat.log2_lt hn).2 (Nat.sub_lt (Nat.two_pow_pos _) Nat.one_pos)
  have hmax : format.maxExponent ≤ 16383 := h
  omega

open Extended

@[simp] theorem Rounded.exact_hasEncoding_iff (x : Extended) :
    (Rounded.exact x).value.HasEncoding ↔ x.HasEncoding := Iff.rfl

@[simp] theorem Rounded.invalid_hasEncoding : Rounded.invalid.value.HasEncoding :=
  indefinite_hasEncoding

theorem ite_hasEncoding {c : Prop} [Decidable c] {r s : Rounded}
    (hr : c → r.value.HasEncoding) (hs : ¬c → s.value.HasEncoding) :
    (if c then r else s).value.HasEncoding := by
  split
  · exact hr ‹_›
  · exact hs ‹_›

/-- What is kept of a value has an encoding in the range of the format, however it was cut: its
leading one is checked. -/
@[simp]
theorem pack_hasEncoding {format : Format} (h : format.IsRegisterRange) (mode : Rounding)
    (sign : Bool) (kept : Kept) : (format.pack mode sign kept).value.HasEncoding := by
  have hmax : format.maxExponent ≤ 16383 := h
  unfold Format.pack
  dsimp only
  refine ite_hasEncoding (fun _ => zero_hasEncoding sign) fun _ => ?_
  refine ite_hasEncoding (fun _ => ?_) fun hle => ofExact_hasEncoding fun _ => by omega
  dsimp only
  split
  · exact infinity_hasEncoding sign
  · exact Format.largest_hasEncoding h sign

/-- A value that is rounded to a format has an encoding. -/
@[simp]
theorem roundTo_hasEncoding {format : Format} (h : format.IsRegisterRange) (mode : Rounding)
    (sign : Bool) (significand : Nat) (scale : Int) :
    (roundTo format mode sign significand scale).value.HasEncoding :=
  ite_hasEncoding (fun _ => zero_hasEncoding sign) fun _ => pack_hasEncoding h mode sign _

/-- What is left after bits are dropped is at most one more than before. -/
theorem dropBits_le (mode : Rounding) (sign : Bool) (magnitude count : Nat) :
    (dropBits mode sign magnitude count).1 ≤ magnitude + 1 := by
  have hshift : magnitude >>> count ≤ magnitude := Nat.shiftRight_le magnitude count
  unfold dropBits
  split
  · exact Nat.le_succ magnitude
  · dsimp only
    split <;> omega

/-! ## Arithmetic -/

namespace Extended

section Arithmetic

variable {a b x : Extended} (mode : Rounding)

/-- The NaN that results from two operands has an encoding. -/
theorem chooseNan_hasEncoding (ha : a.HasEncoding) (hb : b.HasEncoding) :
    (chooseNan a b).HasEncoding := by
  unfold chooseNan
  split_ifs <;> assumption

theorem nanResult?_hasEncoding (ha : a.HasEncoding) (hb : b.HasEncoding) :
    ∀ r ∈ nanResult? a b, r.value.HasEncoding := by
  unfold nanResult?
  split
  · rintro _ ⟨⟩
    exact quiet_hasEncoding (chooseNan_hasEncoding ha hb)
  · rintro _ ⟨⟩

/-- An operation delivers one of its NaNs or computes a result. -/
theorem getD_nanResult?_hasEncoding {r : Rounded} (ha : a.HasEncoding)
    (hb : b.HasEncoding) (hr : r.value.HasEncoding) :
    ((nanResult? a b).getD r).value.HasEncoding := by
  cases hnan : nanResult? a b with
  | none => exact hr
  | some nan => exact nanResult?_hasEncoding ha hb nan hnan

/-- A sum is rounded, whatever the alignment of its operands. -/
theorem addAligned_hasEncoding (big small : Extended) :
    (addAligned mode big small).value.HasEncoding := by
  unfold addAligned
  dsimp only
  split_ifs <;> simp

theorem addNumbers_hasEncoding (ha : a.HasEncoding) (hb : b.HasEncoding) :
    (addNumbers mode a b).value.HasEncoding := by
  unfold addNumbers
  split_ifs <;> simp [ha, hb, addAligned_hasEncoding]

theorem mulNumbers_hasEncoding (a b : Extended) : (mulNumbers mode a b).value.HasEncoding := by
  unfold mulNumbers
  dsimp only
  split_ifs <;> simp

theorem divNumbers_hasEncoding (a b : Extended) : (divNumbers mode a b).value.HasEncoding := by
  unfold divNumbers
  dsimp only
  split_ifs <;> simp

/-- The result of an arithmetic operation has an encoding. -/
theorem op_hasEncoding (op : FloatOp) (ha : a.HasEncoding)
    (hb : b.HasEncoding) : (op.apply mode a b).value.HasEncoding := by
  have hsub {a b : Extended} (ha : a.HasEncoding) (hb : b.HasEncoding) :
      (a.sub mode b).value.HasEncoding :=
    getD_nanResult?_hasEncoding ha hb (addNumbers_hasEncoding mode ha hb)
  have hdiv {a b : Extended} (ha : a.HasEncoding) (hb : b.HasEncoding) :
      (a.div mode b).value.HasEncoding :=
    getD_nanResult?_hasEncoding ha hb (divNumbers_hasEncoding mode a b)
  cases op with
  | add => exact getD_nanResult?_hasEncoding ha hb (addNumbers_hasEncoding mode ha hb)
  | mul => exact getD_nanResult?_hasEncoding ha hb (mulNumbers_hasEncoding mode a b)
  | sub => exact hsub ha hb
  | subReversed => exact hsub hb ha
  | div => exact hdiv ha hb
  | divReversed => exact hdiv hb ha

theorem sqrt_hasEncoding (hx : x.HasEncoding) : (x.sqrt mode).value.HasEncoding := by
  unfold sqrt
  dsimp only
  split_ifs <;> simp [hx, quiet_hasEncoding]

theorem scaleBy_hasEncoding (hx : x.HasEncoding) (n : Int) :
    (x.scaleBy mode n).value.HasEncoding := by
  unfold scaleBy
  split_ifs <;> simp [hx]

/-- A number that is not integral already is below `2 ^ 64`, and rounding adds at most one. -/
theorem roundToIntegral_hasEncoding (hx : x.HasEncoding) :
    (x.roundToIntegral mode).1.HasEncoding := by
  unfold roundToIntegral
  split
  · apply ofExact_hasEncoding
    intro hn
    have hkept := dropBits_le mode x.sign x.significand.toNat (-x.scale).toNat
    have hlt := x.significand.isLt
    have hlog := log2_le_of_lt (k := 64) hn (by omega)
    omega
  · exact hx

end Arithmetic

/-! ## Partial remainders -/

section Remainder

variable {a b x : Extended}

/-- A number with a significand of zero is zero or treated like a NaN. -/
theorem significand_ne_zero (hnan : x.isNan = false) (hzero : x.isZero = false) :
    x.significand.toNat ≠ 0 := by
  intro h
  have hsig : x.significand = 0 := BitVec.eq_of_toNat_eq h
  simp_all [isNan, isZero, classify]

theorem normalizedSignificand_lt (x : Extended) : x.normalizedSignificand < 2 ^ 64 := by
  have hlog := log2_significand_le x
  have hsig : x.significand.toNat < 2 ^ (x.significand.toNat.log2 + 1) := Nat.lt_log2_self
  calc x.normalizedSignificand
      = x.significand.toNat * 2 ^ (63 - x.significand.toNat.log2) := Nat.shiftLeft_eq _ _
    _ < 2 ^ (x.significand.toNat.log2 + 1) * 2 ^ (63 - x.significand.toNat.log2) :=
      Nat.mul_lt_mul_of_pos_right hsig (Nat.two_pow_pos _)
    _ = 2 ^ 64 := by
      rw [← Nat.pow_add]
      congr 1
      omega

/-- A remainder of the normalized significand of `b` has at most 64 bits. -/
theorem log2_mod_normalizedSignificand_le (hb : b.significand.toNat ≠ 0) {n : Nat}
    (hn : n % b.normalizedSignificand ≠ 0) : (n % b.normalizedSignificand).log2 ≤ 63 := by
  have hpos : 0 < b.normalizedSignificand := by
    rw [normalizedSignificand, Nat.shiftLeft_eq]
    exact Nat.mul_pos (Nat.pos_of_ne_zero hb) (Nat.two_pow_pos _)
  have hmod := Nat.mod_lt n hpos
  exact log2_le_of_lt hn (Nat.lt_trans hmod (normalizedSignificand_lt b))

/-- A remainder is below the divisor or below the dividend. -/
theorem remainderStep_hasEncoding (ha : a.HasEncoding) (hb : b.HasEncoding)
    (hne : b.significand.toNat ≠ 0) : (remainderStep a b).value.HasEncoding := by
  have hla := leadingExponent_le ha
  have hlb := leadingExponent_le hb
  unfold remainderStep
  dsimp only
  split_ifs
  · exact ha
  all_goals
    dsimp only
    refine ofExact_hasEncoding fun hn => ?_
    have hlog := log2_mod_normalizedSignificand_le hne hn
    omega

/-- What a step of a division leaves has an encoding. -/
theorem partialRemainder_hasEncoding (ha : a.HasEncoding) (hb : b.HasEncoding) :
    (partialRemainder a b).value.HasEncoding := by
  unfold partialRemainder
  split
  case h_1 r hr => exact nanResult?_hasEncoding ha hb r hr
  case h_2 hr =>
    split_ifs with hinvalid hexact
    · exact indefinite_hasEncoding
    · exact ha
    · have hnan : b.isNan = false := by
        cases hnan : b.isNan with
        | false => rfl
        | true => simp [nanResult?, hnan] at hr
      have hzero : b.isZero = false := by simp_all
      exact remainderStep_hasEncoding ha hb (significand_ne_zero hnan hzero)

end Remainder

/-! ## Interchange formats -/

/-- A number read from 32 or 64 bits has an encoding. -/
theorem decode_hasEncoding {format : Format} (h : format = .single ∨ format = .double)
    (bits : Nat) : (decode format bits).HasEncoding := by
  unfold decode
  dsimp only
  split_ifs with hspecial hzero hfield
  · exact infinity_hasEncoding _
  · exact BitVec.le_refl _
  · apply ofExact_hasEncoding
    intro hn
    have hlt : bits % Nat.pow 2 format.fractionBits < 2 ^ format.fractionBits :=
      Nat.mod_lt _ (Nat.two_pow_pos _)
    have hlog : (bits % Nat.pow 2 format.fractionBits).log2 < format.fractionBits :=
      (Nat.log2_lt hn).2 hlt
    have hmin : format.minExponent ≤ 0 := by rcases h with rfl | rfl <;> decide
    omega
  · have hlt : fieldOf format bits < Nat.pow 2 format.exponentBits :=
      Nat.mod_lt _ (Nat.two_pow_pos _)
    change (BitVec.ofInt 16 (fieldOf format bits - 1 + format.minExponent + bias)).toNat ≤ 0x7FFF
    rw [BitVec.toNat_ofInt]
    rcases h with rfl | rfl
    · have hpow : Nat.pow 2 Format.single.exponentBits = 256 := by decide
      simp only [bias, Format.single] at *
      omega
    · have hpow : Nat.pow 2 Format.double.exponentBits = 2048 := by decide
      simp only [bias, Format.double] at *
      omega

theorem toDouble_hasEncoding {x : Extended} (hx : x.HasEncoding) : x.toDouble.HasEncoding := by
  unfold toDouble
  split
  · exact roundTo_hasEncoding Format.double_isRegisterRange _ _ _ _
  · exact hx

end Extended

/-! ## Elementary functions -/

namespace Elementary

open Extended

variable {x y : Extended}

/-- A value that was approximated by an integer is rounded like any other. -/
@[simp]
theorem roundFixed_hasEncoding (p : Nat) (value : Int) : (roundFixed p value).HasEncoding :=
  roundTo_hasEncoding Format.double_isRegisterRange _ _ _ _

theorem nearest_hasEncoding (approx : Nat → Int) (tries p : Nat) :
    (nearest approx tries p).HasEncoding := by
  induction tries generalizing p with
  | zero => exact roundFixed_hasEncoding p _
  | succ tries ih =>
    unfold nearest
    dsimp only
    split
    · exact roundFixed_hasEncoding p _
    · exact ih (2 * p)

@[simp]
theorem nearestOf_hasEncoding (approx : Nat → Int) (small : Int) :
    (nearestOf approx small).HasEncoding :=
  nearest_hasEncoding approx _ _

theorem sin_hasEncoding (hx : x.HasEncoding) : (sin x).HasEncoding := by
  unfold sin
  split_ifs <;> simp [hx]

theorem cos_hasEncoding (x : Extended) : (cos x).HasEncoding := by
  unfold cos
  split_ifs <;> simp

theorem tan_hasEncoding (hx : x.HasEncoding) : (tan x).HasEncoding := by
  unfold tan
  split_ifs <;> simp [hx]

theorem mul_hasEncoding (a b : Extended) : (mul a b).HasEncoding := by
  unfold mul
  dsimp only
  split_ifs <;> simp

theorem expm1_hasEncoding (hx : x.HasEncoding) : (expm1 x).HasEncoding := by
  unfold expm1
  split_ifs <;> simp [hx]

theorem eighths_hasEncoding (n : Int) (sign : Bool) : (eighths n sign).HasEncoding := by
  unfold eighths
  dsimp only
  split_ifs <;> simp

theorem atan2_hasEncoding (hy : y.HasEncoding) : (atan2 y x).HasEncoding := by
  unfold atan2
  dsimp only
  split_ifs <;> simp [hy, eighths_hasEncoding]

end Elementary

/-! ## Operations of the unit -/

namespace Extended

variable {a b x y : Extended}

theorem firstNan?_hasEncoding (ha : a.HasEncoding) (hb : b.HasEncoding) :
    ∀ r ∈ firstNan? a b, r.value.HasEncoding := by
  unfold firstNan?
  split
  · rintro _ ⟨⟩
    apply quiet_hasEncoding
    split <;> assumption
  · rintro _ ⟨⟩

/-- A scaled number is a rounded one, or one of the special values. -/
theorem scaleByNumber_hasEncoding (mode : Rounding) (ha : a.HasEncoding) (hb : b.HasEncoding) :
    (a.scaleByNumber mode b).value.HasEncoding := by
  unfold scaleByNumber
  split
  case h_1 r hr => exact firstNan?_hasEncoding ha hb r hr
  case h_2 =>
    split
    · unfold scaleByInfinity
      split_ifs <;> simp
    · exact scaleBy_hasEncoding mode ha _

theorem powerLessOne_hasEncoding (hx : x.HasEncoding) : x.powerLessOne.value.HasEncoding := by
  unfold powerLessOne
  split
  case h_1 r hr => exact firstNan?_hasEncoding hx hx r hr
  case h_2 =>
    split_ifs
    · simp
    · exact hx
    · exact Elementary.expm1_hasEncoding (Elementary.mul_hasEncoding _ _)

theorem timesLogarithm_hasEncoding (hy : y.HasEncoding) (hx : x.HasEncoding) :
    (timesLogarithm y x).value.HasEncoding := by
  unfold timesLogarithm
  split
  case h_1 r hr => exact firstNan?_hasEncoding hx hy r hr
  case h_2 =>
    split_ifs
    · simp
    · simp
    · simp
    · exact Elementary.mul_hasEncoding _ _

theorem angle_hasEncoding (hy : y.HasEncoding) (hx : x.HasEncoding) :
    (angle y x).value.HasEncoding := by
  unfold angle
  split
  case h_1 r hr => exact firstNan?_hasEncoding hx hy r hr
  case h_2 => exact Elementary.atan2_hasEncoding (toDouble_hasEncoding hy)

end Extended

theorem Trig.apply_hasEncoding (f : Trig) {x : Extended} (hx : x.HasEncoding) :
    (f.apply x).value.HasEncoding := by
  have hdouble := toDouble_hasEncoding hx
  unfold Trig.apply approximate
  cases f with
  | sin =>
    dsimp only
    split
    · exact hx
    · exact Elementary.sin_hasEncoding hdouble
  | cos => exact Elementary.cos_hasEncoding _
  | tan =>
    dsimp only
    split
    · exact hx
    · exact Elementary.tan_hasEncoding hdouble

end Ia32
