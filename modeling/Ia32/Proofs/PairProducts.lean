import Mathlib.Tactic.Linarith
import Mathlib.Tactic.Ring
import Ia32.Proofs.PairDivision

/-!
# Products of integers

The product of two numbers of a width always fits in twice the width, so that a
multiplication of the accumulator is exact in the pair.  Carry and overflow tell
that the low half alone does not hold it.  For natural numbers that is when the
high half is not zero, and for signed ones when the low half, read as a signed
number, is another number than the product.

A division undoes a multiplication by the same value: the accumulator is a
quotient that fits, and nothing is left over.
-/

namespace Ia32

open Host Exec

variable {w : Width} {a b : Dword} {x y : Int} {reading : Reading}

/-! ## Exact products -/

namespace Reading

/-- The product of two values, cut into halves. -/
def product (w : Width) (a b : Dword) : Reading → Pair
  | .unsigned => w.product a b
  | .signed => w.signedProduct a b

/-- Whether a multiplication sets carry and overflow. -/
def productOverflows (w : Width) (a b : Dword) : Reading → Bool
  | .unsigned => (w.product a b).high != 0
  | .signed => w.signedProductOverflows a b

/-- The high half of a product lies within the width. -/
theorem holds_high (hx : reading.Holds w x) (hy : reading.Holds w y) :
    reading.Holds w (x * y / 2 ^ w.bits) := by
  have hpos : (0 : Int) < 2 ^ w.bits := by positivity
  cases reading with
  | unsigned =>
    obtain ⟨hx₁, hx₂⟩ := hx
    obtain ⟨hy₁, hy₂⟩ := hy
    have hlt : x * y < 2 ^ w.bits * 2 ^ w.bits := mul_lt_mul'' hx₂ hy₂ hx₁ hy₁
    exact ⟨Int.ediv_nonneg (Int.mul_nonneg hx₁ hy₁) hpos.le, Int.ediv_lt_of_lt_mul hpos hlt⟩
  | signed =>
    obtain ⟨hx₁, hx₂⟩ := hx
    obtain ⟨hy₁, hy₂⟩ := hy
    have hhalf : (0 : Int) < w.half := mod_cast Nat.two_pow_pos (w.bits - 1)
    have hbits : (2 ^ w.bits : Int) = 2 * w.half := mod_cast w.two_pow_bits
    have habs : |x * y| ≤ w.half * w.half := by
      rw [abs_mul]
      exact mul_le_mul (abs_le.2 ⟨hx₁, hx₂.le⟩) (abs_le.2 ⟨hy₁, hy₂.le⟩) (abs_nonneg y) hhalf.le
    obtain ⟨hlow, hhigh⟩ := abs_le.1 habs
    have hsquare : (0 : Int) < w.half * w.half := Int.mul_pos hhalf hhalf
    have hdouble : (w.half : Int) * (2 * w.half) = 2 * (w.half * w.half) := by ring
    rw [hbits]
    constructor
    · refine Int.le_ediv_of_mul_le (by omega) ?_
      rw [neg_mul, hdouble]
      linarith
    · refine Int.ediv_lt_of_lt_mul (by omega) ?_
      rw [hdouble]
      linarith

theorem pairValue_truncate (w : Width) (pair : Pair) (reading : Reading) :
    reading.pairValue w ⟨w.truncate pair.low, w.truncate pair.high⟩ = reading.pairValue w pair := by
  rw [pairValue, pairValue, value_truncate, Width.toNat_truncate_eq]

theorem value_of_fits (ha : w.truncate a = a) : Reading.unsigned.value w a = a.toNat :=
  congrArg (fun x => (x.toNat : Int)) ha

/-- The halves of the product of two natural numbers. -/
theorem product_unsigned (ha : w.truncate a = a) (hb : w.truncate b = b) :
    Reading.unsigned.pairValue w (w.product a b) =
        Reading.unsigned.value w a * Reading.unsigned.value w b ∧
      ((w.product a b).high != 0 ↔
        ¬Reading.unsigned.Holds w (Reading.unsigned.value w a * Reading.unsigned.value w b)) := by
  have hholds := holds_high (holds_value w a .unsigned) (holds_value w b .unsigned)
  rw [value_of_fits ha, value_of_fits hb, ← Int.natCast_mul] at hholds ⊢
  have hpos : (0 : Int) < 2 ^ w.bits := by positivity
  have hhigh : (w.product a b).high =
      BitVec.ofInt 32 ((a.toNat * b.toNat : Nat) / 2 ^ w.bits) := by
    have hshift : (((a.toNat * b.toNat) >>> w.bits : Nat) : Int) =
        (a.toNat * b.toNat : Nat) / 2 ^ w.bits := by
      rw [Nat.shiftRight_eq_div_pow, Int.natCast_div]
      rfl
    rw [← hshift, BitVec.ofInt_natCast]
    rfl
  refine ⟨pairValue_of_halves hholds ?low ?high, ?overflow⟩
  case low =>
    rw [Width.product, Width.toNat_truncate_eq, ← BitVec.ofInt_natCast, Width.toNat_ofInt]
  case high => rw [hhigh, Width.toNat_ofInt]
  case overflow =>
    have hvalue : Reading.unsigned.value w (w.product a b).high =
        (a.toNat * b.toNat : Nat) / 2 ^ w.bits := by
      rw [hhigh]
      exact value_ofInt hholds
    rw [bne_iff_ne, not_iff_not]
    constructor
    · intro hzero
      rw [hzero] at hvalue
      have hquotient : ((a.toNat * b.toNat : Nat) : Int) / 2 ^ w.bits = 0 :=
        hvalue.symm.trans (by cases w <;> rfl)
      have hrest := Int.mul_ediv_add_emod (a.toNat * b.toNat : Nat) (2 ^ w.bits)
      rw [hquotient, Int.mul_zero, Int.zero_add] at hrest
      exact ⟨Int.natCast_nonneg _, hrest ▸ Int.emod_lt_of_pos _ hpos⟩
    · intro hfits
      rw [hhigh, Int.ediv_eq_zero_of_lt hfits.1 hfits.2]
      rfl

theorem toNat_low_signedProduct (w : Width) (a b : Dword) :
    (w.toNat (w.signedProduct a b).low : Int) = w.toInt a * w.toInt b % 2 ^ w.bits := by
  rw [Width.signedProduct, Width.toNat_truncate_eq, Width.toNat_ofInt]

/-- The halves of the product of two signed numbers. -/
theorem product_signed (w : Width) (a b : Dword) :
    Reading.signed.pairValue w (w.signedProduct a b) = w.toInt a * w.toInt b ∧
      (w.signedProductOverflows a b ↔ ¬w.Holds (w.toInt a * w.toInt b)) := by
  have hholds := holds_high (holds_value w a .signed) (holds_value w b .signed)
  have hpow : ((2 ^ w.bits : Nat) : Int) = 2 ^ w.bits := by push_cast; rfl
  have hlow := toNat_low_signedProduct w a b
  refine ⟨pairValue_of_halves hholds hlow.symm ?high, ?overflow⟩
  case high =>
    rw [Width.signedProduct, Width.toNat_truncate_eq, Width.toNat_ofInt,
      Int.shiftRight_eq_div_pow, hpow]
  case overflow =>
    rw [Width.signedProductOverflows, bne_iff_ne, not_iff_not]
    constructor
    · intro h
      rw [← h]
      exact w.holds_toInt _
    · intro h
      exact Width.toInt_eq_of_holds h hlow.symm

/-- The halves of a product stand for it, and the overflow of a multiplication tells that the
width does not hold it. -/
theorem product_exact (ha : w.truncate a = a) (hb : w.truncate b = b) (reading : Reading) :
    reading.pairValue w (reading.product w a b) = reading.value w a * reading.value w b ∧
      (reading.productOverflows w a b ↔
        ¬reading.Holds w (reading.value w a * reading.value w b)) := by
  cases reading with
  | unsigned => exact product_unsigned ha hb
  | signed => exact product_signed w a b

end Reading

/-! ## Flags -/

/-- Carry and overflow both tell whether something is the case. -/
structure Flags.BothTell (flags : Dword) (P : Prop) : Prop where
  carry : test flags Flags.carry ↔ P
  overflow : test flags Flags.overflow ↔ P

namespace Exec

variable {on : Bool} {P : Prop}

theorem tell_setCarryOverflow (h : on ↔ P) (s : Processor) :
    Flags.BothTell (setCarryOverflow on s).eflags P where
  carry := by
    rw [← h]
    refine Bool.eq_iff_iff.1 ((Flags.test_assign_of_disjoint (by decide) _ _).trans ?_)
    exact Flags.test_assign_self (by decide) _ _
  overflow := by
    rw [← h]
    exact Bool.eq_iff_iff.1 (Flags.test_assign_self (by decide) _ _)

theorem sign_setCarryOverflow (on sign : Bool) (s : Processor) :
    Flags.test (setCarryOverflow on (s.setFlag Flags.sign sign)).eflags Flags.sign = sign := by
  refine (Flags.test_assign_of_disjoint (by decide) _ _).trans ?_
  refine (Flags.test_assign_of_disjoint (by decide) _ _).trans ?_
  exact Flags.test_assign_self (by decide) _ _

end Exec

namespace Processor

/-- A multiplication writes the halves of the product. -/
theorem accumulatorPair_multiplied (s : Processor) (w : Width) (b : Dword) (reading : Reading) :
    accumulatorPair w (s.multiplied w b reading) =
      ⟨w.truncate (reading.product w (s.reg w Reg.eax) b).low,
        w.truncate (reading.product w (s.reg w Reg.eax) b).high⟩ := by
  rw [← accumulatorPair_set w _ _ s]
  cases reading <;> exact accumulatorPair_congr rfl w

theorem tell_multiplied (s : Processor) (hb : w.truncate b = b) (reading : Reading) :
    Flags.BothTell (s.multiplied w b reading).eflags
      (¬reading.Holds w (reading.value w (s.reg w Reg.eax) * reading.value w b)) := by
  have hover := (Reading.product_exact (s.truncate_reg w Reg.eax) hb reading).2
  cases reading <;> exact tell_setCarryOverflow hover _

theorem sign_multiplied (s : Processor) (w : Width) (b : Dword) :
    Flags.test (s.multiplied w b .signed).eflags Flags.sign =
      (accumulatorPair w (s.multiplied w b .signed)).low.getLsbD (w.bits - 1) := by
  rw [accumulatorPair_multiplied]
  dsimp only
  rw [← Width.isNegative_eq, Width.isNegative_truncate]
  exact sign_setCarryOverflow _ _ _

end Processor

/-! ## Steps -/

variable {H : Type} [Host H] {m : Machine H} {p : Prefixes} {next : Dword} {r : Reg}

/-- A machine comes out of another one by a multiplication of the accumulator. -/
structure Machine.Multiplied (m : Machine H) (w : Width) (reading : Reading) (b : Dword)
    (m' : Machine H) : Prop where
  /-- The pair holds the product. -/
  product : reading.pairValue w (accumulatorPair w m'.toProcessor) =
    reading.value w (m.reg w Reg.eax) * reading.value w b
  /-- Carry and overflow tell that the width does not hold the product. -/
  overflows : Flags.BothTell m'.eflags
    (¬reading.Holds w (reading.value w (m.reg w Reg.eax) * reading.value w b))
  /-- A signed product has the sign of its low half. -/
  sign : reading = .signed → Flags.test m'.eflags Flags.sign =
    (accumulatorPair w m'.toProcessor).low.getLsbD (w.bits - 1)

/-- A register of a machine holds the low half of the signed product of two values. -/
structure Machine.HoldsProduct (m : Machine H) (w : Width) (r : Reg) (a b : Dword) : Prop where
  /-- The product, modulo two to the width. -/
  product : ((m.reg w r).toNat : Int) = w.toInt a * w.toInt b % 2 ^ w.bits
  /-- Carry and overflow tell that the width does not hold the product. -/
  overflows : Flags.BothTell m.eflags (¬w.Holds (w.toInt a * w.toInt b))
  /-- The sign is that of the low half. -/
  sign : Flags.test m.eflags Flags.sign = (m.reg w r).getLsbD (w.bits - 1)

namespace Machine

theorem step_of_multiplication (h : m.integerStart? = some ⟨p, .multiply w reading b, next⟩) :
    m.step.1 = .completed ∧ m.Multiplied w reading b m.step.2 := by
  obtain ⟨log, hok, -⟩ := exists_step_of_start h
  have hb : w.truncate b = b := factorFits h
  have hstep := hok _ rfl
  have hfactor : { m.toProcessor with eip := next }.reg w Reg.eax = m.reg w Reg.eax :=
    Processor.reg_congr rfl w Reg.eax
  refine ⟨congrArg Prod.fst hstep, ?_⟩
  rw [hstep]
  constructor
  case product =>
    have hpair := Processor.accumulatorPair_multiplied { m.toProcessor with eip := next } w b reading
    have hexact := Reading.product_exact (m.toProcessor.truncate_reg w Reg.eax) hb reading
    refine (congrArg (reading.pairValue w) hpair).trans ?_
    rw [Reading.pairValue_truncate, hfactor, hexact.1]
  case overflows =>
    rw [← hfactor]
    exact Processor.tell_multiplied _ hb reading
  case sign =>
    rintro rfl
    exact Processor.sign_multiplied _ w b

theorem step_of_product (h : m.integerStart? = some ⟨p, .storeProduct w r a b, next⟩) :
    m.step.1 = .completed ∧ m.step.2.HoldsProduct w r a b := by
  obtain ⟨log, hok, -⟩ := exists_step_of_start h
  have hstep := hok _ rfl
  refine ⟨congrArg Prod.fst hstep, ?_⟩
  have hreg : m.step.2.reg w r = w.truncate (w.signedProduct a b).low := by
    rw [hstep, ← Processor.reg_setReg { m.toProcessor with eip := next } w r]
    exact Processor.reg_congr rfl w r
  constructor
  case product =>
    rw [hreg]
    exact Reading.toNat_low_signedProduct w a b
  case overflows =>
    rw [hstep]
    exact tell_setCarryOverflow (Reading.product_signed w a b).2 _
  case sign =>
    rw [hreg, ← Width.isNegative_eq, Width.isNegative_truncate, hstep]
    exact sign_setCarryOverflow _ _ _

end Machine

/-- A division by the value that the accumulator was multiplied by. -/
theorem step_of_division_back {p' : Prefixes} {next' : Dword}
    (h : m.integerStart? = some ⟨p, .multiply w .unsigned b, next⟩)
    (h' : m.step.2.integerStart? = some ⟨p', .divide w .unsigned b, next'⟩)
    (h0 : w.toNat b ≠ 0) :
    m.step.2.step.1 = .completed ∧
      accumulatorPair w m.step.2.step.2.toProcessor = ⟨m.reg w Reg.eax, 0⟩ := by
  obtain ⟨-, hproduct, -, -⟩ := Machine.step_of_multiplication h
  have hv : Reading.unsigned.value w b ≠ 0 := fun hb => h0 (Int.natCast_eq_zero.1 hb)
  have hfits : ¬Reading.unsigned.Fails w (accumulatorPair w m.step.2.toProcessor) b := by
    rw [Reading.Fails, hproduct, Int.mul_tdiv_cancel _ hv, not_or, not_not]
    exact ⟨hv, Reading.holds_value w _ .unsigned⟩
  obtain ⟨hcompleted, hdivided⟩ := Machine.step_of_not_fails h' hfits
  refine ⟨hcompleted, ?_⟩
  have hpair := accumulatorPair_fits w m.step.2.step.2.toProcessor
  have hidentity := hdivided.identity
  rw [hproduct] at hidentity
  have hdvd : Reading.unsigned.value w b ∣
      Reading.unsigned.value w (accumulatorPair w m.step.2.step.2.toProcessor).high :=
    (Int.dvd_add_right (Int.dvd_mul_left _ _)).1 (hidentity ▸ Int.dvd_mul_left _ _)
  have hhigh := Int.eq_zero_of_dvd_of_natAbs_lt_natAbs hdvd hdivided.smaller
  rw [hhigh, Int.add_zero] at hidentity
  have hlow := Int.eq_of_mul_eq_mul_right hv hidentity
  rw [Reading.value_of_fits hpair.high] at hhigh
  rw [Reading.value_of_fits hpair.low, Reading.value_of_fits (Processor.truncate_reg _ _ _)] at hlow
  exact congrArg₂ Pair.mk (BitVec.eq_of_toNat_eq (Int.natCast_inj.1 hlow).symm)
    (BitVec.eq_of_toNat_eq (Int.natCast_eq_zero.1 hhigh))

/-- Every multiplication is exact, and carry and overflow tell that its product leaves the width.
A division by the value that the accumulator was multiplied by gives the accumulator back. -/
theorem products_are_exact (m : Machine H) :
    (∀ {p w reading b next}, m.integerStart? = some ⟨p, .multiply w reading b, next⟩ →
      m.step.1 = .completed ∧ m.Multiplied w reading b m.step.2) ∧
    (∀ {p w r a b next}, m.integerStart? = some ⟨p, .storeProduct w r a b, next⟩ →
      m.step.1 = .completed ∧ m.step.2.HoldsProduct w r a b) ∧
    ∀ {p p' w b next next'}, m.integerStart? = some ⟨p, .multiply w .unsigned b, next⟩ →
      m.step.2.integerStart? = some ⟨p', .divide w .unsigned b, next'⟩ →
      w.toNat b ≠ 0 →
      m.step.2.step.1 = .completed ∧
        accumulatorPair w m.step.2.step.2.toProcessor = ⟨m.reg w Reg.eax, 0⟩ :=
  ⟨Machine.step_of_multiplication, Machine.step_of_product, step_of_division_back⟩

/-- A machine that multiplies a byte by another one, and then divides by it. -/
def multiplying : Machine Ram :=
  { Machine.running #[0xF6, 0xE3, 0xF6, 0xF3] .initial with
    regs := #v[0x12, 0, 0, 0x34, 0, 0, 0, 0] }

/-- A machine that stores five times a word, which leaves the width of words. -/
def storingProduct : Machine Ram :=
  { Machine.running #[0x6B, 0xC3, 0x05] .initial with regs := #v[0, 0, 0, 0x4000, 0, 0, 0, 0] }

theorem products_are_exact_multiplying :
    (multiplying.step.1 = .completed ∧
      multiplying.Multiplied .byte .unsigned 0x34 multiplying.step.2) ∧
    (storingProduct.step.1 = .completed ∧
      storingProduct.step.2.HoldsProduct .word Reg.eax 0x4000 5) ∧
    multiplying.step.2.step.1 = .completed ∧
      accumulatorPair .byte multiplying.step.2.step.2.toProcessor = ⟨0x12, 0⟩ := by
  have hmultiply : multiplying.integerStart? =
      some ⟨{ start := 0 }, .multiply .byte .unsigned 0x34, 2⟩ := by decide +kernel
  have hdivide : multiplying.step.2.integerStart? =
      some ⟨{ start := 2 }, .divide .byte .unsigned 0x34, 4⟩ := by decide +kernel
  have hstore : storingProduct.integerStart? =
      some ⟨{ start := 0 }, .storeProduct .word Reg.eax 0x4000 5, 3⟩ := by decide +kernel
  refine ⟨(products_are_exact multiplying).1 hmultiply,
    (products_are_exact storingProduct).2.1 hstore, ?_⟩
  exact (products_are_exact multiplying).2.2 hmultiply hdivide (by decide)

end Ia32
