import Ia32.Proofs.IntegerStarts

/-!
# The accumulator pair

A product and a dividend have twice the width of the operands.  They lie in the
accumulator pair: the low half in the accumulator, and the high half in the data
register or, for bytes, in the second byte of the accumulator.  The high half
carries the sign of a signed number, so that a pair stands for the number of the
high half times two to the width, and the natural number of the low half above
that (`Reading.pairValue`).
-/

namespace Ia32

open Exec

/-! ## Numbers -/

namespace Width

variable {w : Width}

theorem toNat_lt (w : Width) (x : Dword) : w.toNat x < 2 ^ w.bits := by
  rw [toNat_eq]
  exact Nat.mod_lt _ (Nat.two_pow_pos _)

/-- A word cut out of an integer. -/
theorem toNat_ofInt (w : Width) (n : Int) :
    (w.toNat (BitVec.ofInt 32 n) : Int) = n % 2 ^ w.bits := by
  have hdvd : (2 ^ w.bits : Int) ∣ 2 ^ 32 := pow_dvd_pow 2 w.bits_le
  rw [toNat_eq, BitVec.toNat_ofInt, Int.natCast_emod,
    Int.toNat_of_nonneg (Int.emod_nonneg n (by decide))]
  exact Int.emod_emod_of_dvd n hdvd

end Width

namespace Reading

/-- The number that a value stands for. -/
def value (w : Width) (x : Dword) : Reading → Int
  | .unsigned => w.toNat x
  | .signed => w.toInt x

/-- Whether a number can be told in the bits of the width. -/
def Holds (w : Width) (n : Int) : Reading → Prop
  | .unsigned => 0 ≤ n ∧ n < 2 ^ w.bits
  | .signed => w.Holds n

/-- The number that a pair stands for. -/
def pairValue (w : Width) (pair : Pair) (reading : Reading) : Int :=
  reading.value w pair.high * 2 ^ w.bits + w.toNat pair.low

variable {w : Width} {x : Dword} {n : Int} {reading : Reading}

theorem holds_value (w : Width) (x : Dword) (reading : Reading) :
    reading.Holds w (reading.value w x) := by
  cases reading with
  | unsigned =>
    have hlt : (w.toNat x : Int) < 2 ^ w.bits := mod_cast w.toNat_lt x
    exact ⟨Int.natCast_nonneg _, hlt⟩
  | signed => exact w.holds_toInt x

theorem value_truncate (w : Width) (x : Dword) (reading : Reading) :
    reading.value w (w.truncate x) = reading.value w x := by
  cases reading with
  | unsigned => exact congrArg Int.ofNat (w.toNat_truncate_eq x)
  | signed => exact w.toInt_truncate x

/-- A number is known by its value modulo two to the width. -/
theorem value_eq_of_holds (hn : reading.Holds w n) (h : n % 2 ^ w.bits = w.toNat x) :
    reading.value w x = n := by
  cases reading with
  | unsigned =>
    obtain ⟨hn₁, hn₂⟩ := hn
    exact h.symm.trans (Int.emod_eq_of_lt hn₁ hn₂)
  | signed => exact Width.toInt_eq_of_holds hn h

/-- A number that the width holds is told by the word that is cut out of it. -/
theorem value_ofInt (hn : reading.Holds w n) : reading.value w (BitVec.ofInt 32 n) = n :=
  value_eq_of_holds hn (w.toNat_ofInt n).symm

end Reading

/-! ## Pairs -/

/-- Both halves of a pair lie within the width. -/
structure Pair.Fits (w : Width) (pair : Pair) : Prop where
  low : w.truncate pair.low = pair.low
  high : w.truncate pair.high = pair.high

namespace Reading

variable {w : Width} {pair : Pair} {reading : Reading} {n : Int}

/-- The halves of a number are its remainder and its quotient by two to the width. -/
theorem pairValue_of_halves (hhigh : reading.Holds w (n / 2 ^ w.bits))
    (hl : n % 2 ^ w.bits = w.toNat pair.low)
    (hh : n / 2 ^ w.bits % 2 ^ w.bits = w.toNat pair.high) : reading.pairValue w pair = n := by
  rw [pairValue, value_eq_of_holds hhigh hh, ← hl, Int.mul_comm]
  exact Int.mul_ediv_add_emod n _

end Reading

namespace Pair.Fits

variable {w : Width} {pair : Pair}

theorem ofPair_eq (h : pair.Fits w) :
    (w.ofPair pair : Int) = Reading.unsigned.pairValue w pair := by
  have hlow : w.toNat pair.low = pair.low.toNat := congrArg BitVec.toNat h.low
  have hhigh : w.toNat pair.high = pair.high.toNat := congrArg BitVec.toNat h.high
  have hpow : Nat.pow 2 w.bits = 2 ^ w.bits := rfl
  rw [Reading.pairValue, Reading.value, hlow, hhigh, Width.ofPair, hpow]
  push_cast
  exact Int.add_comm _ _

/-- A pair is read in two's complement of twice the width. -/
theorem signedOfPair_eq (h : pair.Fits w) :
    w.signedOfPair pair = Reading.signed.pairValue w pair := by
  have hmod := w.toInt_emod pair.high
  have hhigh := w.holds_toInt pair.high
  have hlow := w.toNat_lt pair.low
  rw [Width.signedOfPair, h.ofPair_eq, Int.bmod_def]
  simp only [Reading.pairValue, Reading.value, Width.Holds] at *
  cases w <;> simp only [Width.bits, Width.half] at * <;> norm_num at * <;> omega

end Pair.Fits

/-! ## Registers -/

namespace Processor

variable {s : Processor} {w : Width} {r r' : Reg} {old value : Dword}

/-- The bits of a general register that a register of a width takes. -/
def partMask (w : Width) (r : Reg) : Dword :=
  match w with
  | .byte => if r < 4 then 0xFF else 0xFF00
  | _ => w.mask

/-- The bits of a general register that lie in the accumulator pair. -/
def pairMask (w : Width) (r : Reg) : Dword :=
  match w with
  | .byte => if r = Reg.eax then 0xFFFF else 0
  | _ => if r = Reg.eax ∨ r = Reg.edx then w.mask else 0

theorem get_setReg (s : Processor) (w : Width) (r : Reg) (value : Dword) :
    (s.setReg w r value).regs.get (holder w r) = merge w r (s.regs.get (holder w r)) value :=
  Vector.getElem_set_self (holder w r).isLt

theorem get_setReg_of_ne (h : holder w r ≠ r') :
    (s.setReg w r value).regs.get r' = s.regs.get r' :=
  Vector.getElem_set_ne (holder w r).isLt r'.isLt fun he => h (Fin.ext he)

/-- A value where a register of a width has it in the general register. -/
def placed (w : Width) (r : Reg) (value : Dword) : Dword :=
  match w with
  | .byte => if r < 4 then value else value <<< 8
  | _ => value

/-- A part of a general register as the value of a register of a width. -/
def taken (w : Width) (r : Reg) (part : Dword) : Dword :=
  match w with
  | .byte => if r < 4 then part else part >>> 8
  | _ => part

/-- A register is read from its part of the general register. -/
theorem reg_eq (s : Processor) (w : Width) (r : Reg) :
    s.reg w r = taken w r (s.regs.get (holder w r) &&& partMask w r) := by
  cases w with
  | dword => exact BitVec.and_allOnes.symm
  | word => rfl
  | byte =>
    by_cases hr : r < 4
    · simp only [reg, holder, partMask, taken, if_pos hr]
    · simp only [reg, holder, partMask, taken, if_neg hr, BitVec.ushiftRight_and_distrib]
      rfl

theorem taken_placed (w : Width) (r : Reg) (value : Dword) :
    taken w r (placed w r value &&& partMask w r) = w.truncate value := by
  cases w with
  | dword | word => rfl
  | byte =>
    by_cases hr : r < 4
    · simp only [taken, placed, partMask, if_pos hr]
      rfl
    · have hplaced : value <<< 8 &&& (0xFF00 : Dword) = Width.byte.truncate value <<< 8 :=
        (BitVec.shiftLeft_and_distrib value 0xFF 8).symm
      have hlt : (Width.byte.truncate value).toNat < 2 ^ 8 := Width.toNat_lt .byte value
      simp only [taken, placed, partMask, if_neg hr, hplaced]
      apply BitVec.eq_of_toNat_eq
      rw [BitVec.toNat_ushiftRight, BitVec.toNat_shiftLeft, Nat.shiftLeft_eq,
        Nat.shiftRight_eq_div_pow]
      omega

/-- The part of a general register that a register of a width takes is replaced. -/
theorem merge_eq (w : Width) (r : Reg) (old value : Dword) : merge w r old value =
    (old &&& ~~~partMask w r) ||| (placed w r value &&& partMask w r) := by
  cases w with
  | dword =>
    have hall : Width.dword.mask = BitVec.allOnes 32 := rfl
    simp only [merge, partMask, placed, hall, BitVec.not_allOnes, BitVec.and_zero, BitVec.zero_or,
      BitVec.and_allOnes]
  | word =>
    have hhigh : (0xFFFF0000 : Dword) = ~~~0xFFFF := by decide
    simp only [merge, hhigh]
    rfl
  | byte =>
    by_cases hr : r < 4
    · simp only [merge, partMask, placed, if_pos hr]
      rfl
    · simp only [merge, partMask, placed, if_neg hr, BitVec.shiftLeft_and_distrib]
      rfl

theorem merge_inside (w : Width) (r : Reg) (old value : Dword) :
    merge w r old value &&& partMask w r = placed w r value &&& partMask w r := by
  rw [merge_eq]
  apply BitVec.eq_of_getLsbD_eq
  intro i hi
  cases hbit : (partMask w r).getLsbD i <;> simp [hbit]

theorem merge_of_disjoint {mask : Dword} (h : partMask w r &&& mask = 0) (old value : Dword) :
    merge w r old value &&& mask = old &&& mask := by
  rw [merge_eq]
  apply BitVec.eq_of_getLsbD_eq
  intro i hi
  have hbit := congrArg (BitVec.getLsbD · i) h
  simp only [BitVec.getLsbD_and] at hbit
  cases hpart : (partMask w r).getLsbD i <;> simp_all

theorem reg_congr {s' : Processor} (h : s.regs = s'.regs) (w : Width) (r : Reg) :
    s.reg w r = s'.reg w r := by
  cases w <;> simp only [reg, h]

/-- What is written to a register is read from it. -/
theorem reg_setReg (s : Processor) (w : Width) (r : Reg) (value : Dword) :
    (s.setReg w r value).reg w r = w.truncate value := by
  rw [reg_eq, get_setReg, merge_inside, taken_placed]

/-- A register in another general register, or in another part of the same one, stays. -/
theorem reg_setReg_of_ne (h : holder w r ≠ holder w r' ∨ partMask w r &&& partMask w r' = 0) :
    (s.setReg w r value).reg w r' = s.reg w r' := by
  by_cases hholder : holder w r = holder w r'
  · have hdisjoint := h.resolve_left (not_not_intro hholder)
    rw [reg_eq, reg_eq, ← hholder, get_setReg, merge_of_disjoint hdisjoint]
  · rw [reg_eq, get_setReg_of_ne hholder, ← reg_eq]

/-- A write leaves the rest of the general registers alone. -/
theorem get_setReg_outside {mask : Dword} (h : holder w r = r' → partMask w r &&& mask = 0) :
    (s.setReg w r value).regs.get r' &&& mask = s.regs.get r' &&& mask := by
  by_cases hholder : holder w r = r'
  · rw [← hholder, get_setReg, merge_of_disjoint (h hholder)]
  · rw [get_setReg_of_ne hholder]

end Processor

namespace Exec

variable {w : Width} {low high : Dword} {s : Processor}

/-- The accumulator pair has no bits above the width. -/
theorem accumulatorPair_fits (w : Width) (s : Processor) : (accumulatorPair w s).Fits w := by
  cases w <;> exact ⟨s.truncate_reg _ _, s.truncate_reg _ _⟩

theorem accumulatorPair_congr {s' : Processor} (h : s.regs = s'.regs) (w : Width) :
    accumulatorPair w s = accumulatorPair w s' := by
  cases w <;> simp only [accumulatorPair, Processor.reg_congr h]

/-- The pair is what is written to it. -/
theorem accumulatorPair_set (w : Width) (low high : Dword) (s : Processor) :
    accumulatorPair w (setAccumulatorPair w low high s) = ⟨w.truncate low, w.truncate high⟩ := by
  cases w <;>
  · simp only [accumulatorPair, setAccumulatorPair]
    rw [Processor.reg_setReg, Processor.reg_setReg_of_ne (by decide), Processor.reg_setReg]

theorem setAccumulatorPair_eq (w : Width) (low high : Dword) (s : Processor) :
    setAccumulatorPair w low high s =
      { s with regs := (setAccumulatorPair w low high s).regs } := by
  cases w <;> rfl

theorem setAccumulatorPair_outside (w : Width) (low high : Dword) (s : Processor) (r : Reg) :
    (setAccumulatorPair w low high s).regs.get r &&& ~~~Processor.pairMask w r =
      s.regs.get r &&& ~~~Processor.pairMask w r := by
  revert r
  cases w <;>
  · intro r
    simp only [setAccumulatorPair]
    rw [Processor.get_setReg_outside, Processor.get_setReg_outside]
    all_goals
      rintro rfl
      decide

end Exec

end Ia32
