import Ia32.Proofs.InstructionParts
import Ia32.Proofs.IntegerArithmetic

/-!
# Bit instructions

A bit instruction takes an operand and the number of a bit from the code.  The
number is in a register or follows in the code.  In a register it is signed: an
operand in memory is the start of a string of bits that goes on in both
directions, and the instruction works on the unit that holds the bit.  A number in
the code is cut to the width, and so the unit is the operand itself.
-/

namespace Ia32

open Exec

variable {H : Type} [Host H]

/-- Where the number of a bit comes from. -/
inductive BitSource where
  /-- It is in a register. -/
  | register (r : Reg)
  /-- It follows in the code. -/
  | immediate (k : Dword)
deriving DecidableEq, Repr

/-- A bit instruction with its operands. -/
structure BitInstruction where
  /-- What becomes of the bit. -/
  op : BitOp
  /-- The width. -/
  width : Width
  /-- The operand, which starts the string of bits when it is in memory. -/
  place : Operand
  /-- Where the number of the bit comes from. -/
  source : BitSource
deriving DecidableEq, Repr

/-- The number of the bit, counted from the start of the operand. -/
def BitInstruction.number (b : BitInstruction) (s : Processor) : Int :=
  match b.source with
  | .register r => b.width.toInt (s.reg b.width r)
  | .immediate k => (k.toNat % b.width.bits : Nat)

/-- The offset of the unit that holds bit `n` of the string at an offset. -/
def unitStart (w : Width) (offset : Dword) (n : Int) : Dword :=
  offset + BitVec.ofInt 32 (n.fdiv w.bits * w.bytes)

/-- The number inside its unit of bit `n` of a string. -/
def unitBit (w : Width) (n : Int) : Nat := (n % w.bits).toNat

/-- The unit of a bit is found by a division of its number, rounded down. -/
theorem unitOffset_eq (w : Width) (k : Dword) :
    unitOffset w k = BitVec.ofInt 32 ((w.toInt k).fdiv w.bits * w.bytes) := by
  have hshift (x : Dword) (places : Nat) :
      x.sshiftRight places <<< (places - 3) =
        BitVec.ofInt 32 (x.toInt / (2 ^ places : Nat)) * BitVec.twoPow 32 (places - 3) := by
    rw [BitVec.shiftLeft_eq_mul_twoPow, ← Int.shiftRight_eq_div_pow, ← BitVec.toInt_sshiftRight,
      BitVec.ofInt_toInt]
  unfold unitOffset Width.toInt
  dsimp only
  rw [hshift, Int.fdiv_eq_ediv_of_nonneg _ (Int.natCast_nonneg _), BitVec.ofInt_mul]
  cases w <;> rfl

theorem unitBit_lt (w : Width) (n : Int) : unitBit w n < w.bits := by
  have hhigh := Int.emod_lt_of_pos n (Int.natCast_pos.2 w.bits_pos)
  have hpos := w.bits_pos
  rw [unitBit]
  omega

/-- The unit of an operand that a bit instruction works on. -/
def Operand.unitAt (w : Width) (n : Int) : Operand → Operand
  | .memory seg offset => .memory seg (unitStart w offset n)
  | .register r => .register r

/-! ## Parts -/

namespace Exec

/-- Takes the operands of a bit instruction from the code.  The answer is none for another
instruction. -/
def fetchBits (p : Prefixes) : Instruction → Exec H (Option BitInstruction)
  | .bitByRegister op => do
    let w ← operandWidth p
    let (mode, place) ← fetchOperand p
    checkLockOnBit p op place
    return some ⟨op, w, place, .register mode.firstRegister⟩
  | .bitByImmediate => do
    let w ← operandWidth p
    let mode := ModeByte.ofByte (← fetch8)
    if mode.reg < 4 then throw .invalidOpcode
    let op := BitOp.ofBits (mode.reg.setWidth 2)
    let place ← operand p mode
    let k ← fetch .byte
    checkLockOnBit p op place
    return some ⟨op, w, place, .immediate k⟩
  | _ => return none

/-- Runs a bit instruction whose operands are known. -/
def runBits (b : BitInstruction) : Exec H Unit := do
  let n ← view b.number
  bitOperand b.width b.op (b.place.unitAt b.width n) (unitBit b.width n)

theorem fetchBits_hasEffect (p : Prefixes) (i : Instruction) :
    HasEffect .checks (fetchBits p i : Exec H (Option BitInstruction)) := by
  cases i with
  | bitByRegister op =>
    refine .skip (.view _) fun w => .andThen (fetchOperand_hasEffect p) fun found => ?_
    exact (checkLockOnBit_hasEffect p op found.2).map _
  | bitByImmediate =>
    refine .skip (.view _) fun w => .andThen fetch8_hasEffect fun b => ?_
    extract_lets mode op join
    have hj : ∀ u, HasEffect .checks (join u) := fun _ => by
      refine .andThen (operand_hasEffect p mode) fun place => ?_
      refine .andThen (fetch_hasEffect .byte) fun k => ?_
      exact (checkLockOnBit_hasEffect p op place).map _
    exact .when .throw hj (hj ())
  | _ => exact .pure _

variable {m m₁ : Machine H} {p : Prefixes} {i : Instruction} {b : BitInstruction}

theorem runBits_of_register (op : BitOp) (w : Width) (place : Operand) (r : Reg) (m : Machine H) :
    (runBits ⟨op, w, place, .register r⟩).run m
      = (bitOperand w op (unitPlace w (m.reg w r) place) (unitIndex w (m.reg w r))).run m := by
  have hindex : unitBit w (w.toInt (m.reg w r)) = unitIndex w (m.reg w r) := by
    have hmod := w.toInt_emod (m.reg w r)
    rw [Width.toNat_eq] at hmod
    rw [unitBit, unitIndex]
    cases w <;> simp only [Width.bits] at hmod ⊢ <;> omega
  have hplace : place.unitAt w (w.toInt (m.reg w r)) = unitPlace w (m.reg w r) place := by
    cases place with
    | register r => rfl
    | memory seg offset => rw [unitPlace, unitOffset_eq]; rfl
  rw [runBits, run_view_bind, BitInstruction.number, hindex, hplace]

/-- The unit of a number that lies within the width is the operand itself. -/
theorem unitStart_of_lt {w : Width} {n : Nat} (hn : n < w.bits) (offset : Dword) :
    unitStart w offset n = offset := by
  have hzero : Int.fdiv n w.bits = 0 := by
    rw [Int.fdiv_eq_ediv_of_nonneg _ (Int.natCast_nonneg _)]
    exact Int.ediv_eq_zero_of_lt (Int.natCast_nonneg _) (Int.ofNat_lt.2 hn)
  rw [unitStart, hzero, Int.zero_mul]
  exact BitVec.add_zero offset

theorem runBits_of_immediate (op : BitOp) (w : Width) (place : Operand) (k : Dword)
    (m : Machine H) :
    (runBits ⟨op, w, place, .immediate k⟩).run m
      = (bitOperand w op place (unitIndex w k)).run m := by
  have hlt : k.toNat % w.bits < w.bits := Nat.mod_lt _ w.bits_pos
  have hindex : unitBit w (k.toNat % w.bits : Nat) = unitIndex w k := by
    rw [unitBit, Int.emod_eq_of_lt (Int.natCast_nonneg _) (Int.ofNat_lt.2 hlt)]
    rfl
  have hplace : place.unitAt w (k.toNat % w.bits : Nat) = place := by
    cases place with
    | register r => rfl
    | memory seg offset => rw [Operand.unitAt, unitStart_of_lt hlt]
  rw [runBits, run_view_bind, BitInstruction.number, hindex, hplace]

/-- A bit instruction runs as one, once its operands are taken from the code. -/
theorem runInstruction_of_bits (h : (fetchBits p i).run m = .ok (some b) m₁) :
    (runInstruction p i).run m = (runBits b).run m₁ := by
  cases i with
  | bitByRegister op =>
    rw [fetchBits, operandWidth, run_view_bind] at h
    obtain ⟨⟨mode, place⟩, m', hplace, h⟩ := run_bind_eq_ok_iff.1 h
    obtain ⟨_, m'', hlock, hdone⟩ := run_bind_eq_ok_iff.1 h
    cases hdone
    rw [runInstruction, operandWidth, run_view_bind, bitByRegister, run_bind_of_ok hplace,
      runBits_of_register]
    dsimp only
    rw [run_bind_of_ok hlock, run_view_bind]
  | bitByImmediate =>
    rw [fetchBits, operandWidth, run_view_bind] at h
    obtain ⟨byte, m', hbyte, h⟩ := run_bind_eq_ok_iff.1 h
    rw [runInstruction, operandWidth, run_view_bind, bitByImmediate, run_bind_of_ok hbyte]
    dsimp only at h ⊢
    split at h
    next => cases h
    next hreg =>
      obtain ⟨place, m₂, hplace, h⟩ := run_bind_eq_ok_iff.1 h
      obtain ⟨k, m₃, hk, h⟩ := run_bind_eq_ok_iff.1 h
      obtain ⟨_, m₄, hlock, hdone⟩ := run_bind_eq_ok_iff.1 h
      cases hdone
      rw [if_neg hreg, run_bind_of_ok hplace, run_bind_of_ok hk, run_bind_of_ok hlock,
        runBits_of_immediate]
  | _ => cases h

/-- Bit instructions in two parts. -/
def bitInstructions : Parts H BitInstruction where
  take := fetchBits
  run := runBits
  take_hasEffect := fetchBits_hasEffect
  run_eq := runInstruction_of_bits

end Exec

/-- The bit instruction at the instruction pointer, and the offset of the next instruction. -/
def Machine.bitInstruction? (m : Machine H) : Option (Taken BitInstruction) :=
  m.taken? bitInstructions

end Ia32
