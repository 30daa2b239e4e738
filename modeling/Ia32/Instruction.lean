import Ia32.Alu
import Ia32.Bits
import Ia32.Fault
import Ia32.Instr.Bitwise
import Ia32.Instr.Fpu.Run
import Ia32.Instr.Indirect
import Ia32.Instr.Ports

/-!
# Instructions

An opcode has one byte, or two with the first one `0F`.  The maps of opcodes
are read in rows of eight: the upper five bits of an opcode name the row, the
lower three the column.

`Instruction.decode` and `Instruction.decodeExtended` give the instruction of an
opcode, and `Exec.runInstruction` runs it.
-/

namespace Ia32

/-- The size of operands, as an opcode gives it. -/
inductive Size where
  /-- A byte. -/
  | byte
  /-- A word or a double word, by the code segment and the size marker. -/
  | full
deriving DecidableEq, Repr

/-- An instruction, as its opcode gives it.  Operands follow in the code. -/
inductive Instruction where
  /-- An operation on an operand and a register. -/
  | aluToOperand (size : Size) (op : AluOp)
  /-- An operation on a register and an operand. -/
  | aluToRegister (size : Size) (op : AluOp)
  /-- An operation on the accumulator and an immediate. -/
  | aluAccumulator (size : Size) (op : AluOp)
  /-- An operation on an operand and an immediate. -/
  | aluImmediate (size : Size) (short : Bool)
  /-- Tests an operand against a register. -/
  | testRegister (size : Size)
  /-- Tests the accumulator against an immediate. -/
  | testAccumulator (size : Size)
  /-- Adds one to a register. -/
  | incrementRegister (r : Reg)
  /-- Takes one from a register. -/
  | decrementRegister (r : Reg)
  /-- Adds one to a byte, or takes one from it. -/
  | incrementByte
  /-- Tests, complements, negations, products and quotients. -/
  | unaryGroup (size : Size)
  /-- Increments, indirect transfers and pushes. -/
  | indirectGroup
  /-- The product of a register and an operand. -/
  | multiplyRegister
  /-- The product of an operand and an immediate. -/
  | multiplyImmediate (short : Bool)
  /-- Writes whether a condition holds. -/
  | setCondition (code : BitVec 4)
  /-- Changes a single flag. -/
  | changeFlag (change : Exec.FlagChange)
  /-- Shifts or rotates an operand. -/
  | shiftGroup (size : Size) (count : Exec.CountSource)
  /-- Shifts an operand and fills it from a register. -/
  | doubleShift (direction : Direction) (count : Exec.CountSource)
  /-- Finds the first one of an operand. -/
  | bitScan (order : ScanOrder)
  /-- Works on the bit whose number is in a register. -/
  | bitByRegister (op : BitOp)
  /-- Works on the bit whose number is an immediate. -/
  | bitByImmediate
  /-- Reverses the bytes of a register. -/
  | swapBytes (r : Reg)
  /-- Pushes a register. -/
  | pushRegister (r : Reg)
  /-- Pops into a register. -/
  | popRegister (r : Reg)
  /-- Pushes an immediate. -/
  | pushImmediate (short : Bool)
  /-- Pops into an operand. -/
  | popOperand
  /-- Pushes all registers. -/
  | pushAll
  /-- Pops all registers. -/
  | popAll
  /-- Compares the places of both index registers. -/
  | compareStrings (size : Size)
  /-- Compares the accumulator with the place of the destination index. -/
  | scanString (size : Size)
  /-- Reads the accumulator from a port. -/
  | input (size : Size) (port : Exec.PortSource)
  /-- Writes the accumulator to a port. -/
  | output (size : Size) (port : Exec.PortSource)
  /-- Reads from a port to memory. -/
  | inputString (size : Size)
  /-- Writes from memory to a port. -/
  | outputString (size : Size)
  /-- Jumps. -/
  | jump (short : Bool)
  /-- Jumps when a condition holds. -/
  | jumpIf (code : BitVec 4) (short : Bool)
  /-- Counts down and jumps. -/
  | loop (mode : Option RepeatMode)
  /-- Jumps when the counter is zero. -/
  | jumpIfCounterZero
  /-- Calls. -/
  | call
  /-- Returns. -/
  | ret
  /-- Returns and releases some of the stack. -/
  | retReleasing
  /-- A far transfer to a target that follows in the code. -/
  | far (transfer : Exec.Transfer)
  /-- Returns far. -/
  | retFar
  /-- Returns far and releases some of the stack. -/
  | retFarReleasing
  /-- A floating-point instruction. -/
  | escape (number : BitVec 3)
  /-- Waits for the floating-point unit. -/
  | wait
deriving DecidableEq, Repr

namespace Instruction

/-! ## Rows of the first map -/

/-- The rows of the two-operand operations.  Their last two columns hold other things. -/
def ofAluRow (row : Nat) (op : AluOp) (column : Nat) : Except Feature Instruction :=
  match column with
  | 0 => .ok (.aluToOperand .byte op)
  | 1 => .ok (.aluToOperand .full op)
  | 2 => .ok (.aluToRegister .byte op)
  | 3 => .ok (.aluToRegister .full op)
  | 4 => .ok (.aluAccumulator .byte op)
  | 5 => .ok (.aluAccumulator .full op)
  | 6 => .error (if row < 4 then .segmentPush else .oneByteOpcode)
  | _ => .error (if row < 4 then .segmentPush else .decimalAdjust)

/-- Row `60`: all registers. -/
def ofRow60 (column : Nat) : Except Feature Instruction :=
  match column with
  | 0 => .ok .pushAll
  | 1 => .ok .popAll
  | 2 | 3 => .error .boundArpl
  | _ => .error .oneByteOpcode

/-- Row `68`: immediates and strings of ports. -/
def ofRow68 (column : Nat) : Except Feature Instruction :=
  match column with
  | 0 => .ok (.pushImmediate false)
  | 1 => .ok (.multiplyImmediate false)
  | 2 => .ok (.pushImmediate true)
  | 3 => .ok (.multiplyImmediate true)
  | 4 => .ok (.inputString .byte)
  | 5 => .ok (.inputString .full)
  | 6 => .ok (.outputString .byte)
  | _ => .ok (.outputString .full)

/-- Row `80`: immediates and tests. -/
def ofRow80 (column : Nat) : Except Feature Instruction :=
  match column with
  | 0 | 2 => .ok (.aluImmediate .byte false)
  | 1 => .ok (.aluImmediate .full false)
  | 3 => .ok (.aluImmediate .full true)
  | 4 => .ok (.testRegister .byte)
  | 5 => .ok (.testRegister .full)
  | _ => .error .exchangeMove

/-- Row `88`: moves and a pop. -/
def ofRow88 (column : Nat) : Except Feature Instruction :=
  match column with
  | 7 => .ok .popOperand
  | _ => .error .exchangeMove

/-- Row `98`: a far call and waiting. -/
def ofRow98 (column : Nat) : Except Feature Instruction :=
  match column with
  | 0 | 1 => .error .exchangeConvert
  | 2 => .ok (.far .call)
  | 3 => .ok .wait
  | _ => .error .flagTransfer

/-- Row `A0`: moves and comparisons of strings. -/
def ofRowA0 (column : Nat) : Except Feature Instruction :=
  match column with
  | 6 => .ok (.compareStrings .byte)
  | 7 => .ok (.compareStrings .full)
  | _ => .error .stringMove

/-- Row `A8`: tests and scans of strings. -/
def ofRowA8 (column : Nat) : Except Feature Instruction :=
  match column with
  | 0 => .ok (.testAccumulator .byte)
  | 1 => .ok (.testAccumulator .full)
  | 6 => .ok (.scanString .byte)
  | 7 => .ok (.scanString .full)
  | _ => .error .stringMove

/-- Row `C0`: shifts by an immediate and near returns. -/
def ofRowC0 (column : Nat) : Except Feature Instruction :=
  match column with
  | 0 => .ok (.shiftGroup .byte .immediate)
  | 1 => .ok (.shiftGroup .full .immediate)
  | 2 => .ok .retReleasing
  | 3 => .ok .ret
  | _ => .error .pointerFrame

/-- Row `C8`: far returns. -/
def ofRowC8 (column : Nat) : Except Feature Instruction :=
  match column with
  | 0 | 1 => .error .pointerFrame
  | 2 => .ok .retFarReleasing
  | 3 => .ok .retFar
  | _ => .error .interrupt

/-- Row `D0`: shifts. -/
def ofRowD0 (column : Nat) : Except Feature Instruction :=
  match column with
  | 0 => .ok (.shiftGroup .byte .one)
  | 1 => .ok (.shiftGroup .full .one)
  | 2 => .ok (.shiftGroup .byte .counter)
  | 3 => .ok (.shiftGroup .full .counter)
  | _ => .error .adjustLookup

/-- Row `E0`: loops and ports. -/
def ofRowE0 (column : Nat) : Except Feature Instruction :=
  match column with
  | 0 => .ok (.loop (some .whileNonzero))
  | 1 => .ok (.loop (some .whileZero))
  | 2 => .ok (.loop none)
  | 3 => .ok .jumpIfCounterZero
  | 4 => .ok (.input .byte .immediate)
  | 5 => .ok (.input .full .immediate)
  | 6 => .ok (.output .byte .immediate)
  | _ => .ok (.output .full .immediate)

/-- Row `E8`: transfers and ports. -/
def ofRowE8 (column : Nat) : Except Feature Instruction :=
  match column with
  | 0 => .ok .call
  | 1 => .ok (.jump false)
  | 2 => .ok (.far .jump)
  | 3 => .ok (.jump true)
  | 4 => .ok (.input .byte .register)
  | 5 => .ok (.input .full .register)
  | 6 => .ok (.output .byte .register)
  | _ => .ok (.output .full .register)

/-- Row `F0`: halting, carry and the group of one-operand instructions. -/
def ofRowF0 (column : Nat) : Except Feature Instruction :=
  match column with
  | 1 => .error .icebp
  | 4 => .error .halt
  | 5 => .ok (.changeFlag .invertCarry)
  | 6 => .ok (.unaryGroup .byte)
  | 7 => .ok (.unaryGroup .full)
  | _ => .error .oneByteOpcode

/-- Row `F8`: single flags and the last groups. -/
def ofRowF8 (column : Nat) : Except Feature Instruction :=
  match column with
  | 0 => .ok (.changeFlag .clearCarry)
  | 1 => .ok (.changeFlag .setCarry)
  | 2 | 3 => .error .interruptFlag
  | 4 => .ok (.changeFlag .clearDirection)
  | 5 => .ok (.changeFlag .setDirection)
  | 6 => .ok .incrementByte
  | _ => .ok .indirectGroup

/-! ## The maps -/

/-- The instruction of a one-byte opcode. -/
def decode (opcode : Byte) : Except Feature Instruction :=
  let column := opcode.extractLsb' 0 3
  let row := (opcode.extractLsb' 3 5).toNat
  match row with
  | 0 | 1 | 2 | 3 | 4 | 5 | 6 | 7 =>
    ofAluRow row (.ofBits (opcode.extractLsb' 3 3)) column.toNat
  | 8 => .ok (.incrementRegister (.ofBits column))
  | 9 => .ok (.decrementRegister (.ofBits column))
  | 10 => .ok (.pushRegister (.ofBits column))
  | 11 => .ok (.popRegister (.ofBits column))
  | 12 => ofRow60 column.toNat
  | 13 => ofRow68 column.toNat
  | 14 | 15 => .ok (.jumpIf (opcode.extractLsb' 0 4) true)
  | 16 => ofRow80 column.toNat
  | 17 => ofRow88 column.toNat
  | 18 => .error .exchangeConvert
  | 19 => ofRow98 column.toNat
  | 20 => ofRowA0 column.toNat
  | 21 => ofRowA8 column.toNat
  | 22 | 23 => .error .moveImmediate
  | 24 => ofRowC0 column.toNat
  | 25 => ofRowC8 column.toNat
  | 26 => ofRowD0 column.toNat
  | 27 => .ok (.escape column)
  | 28 => ofRowE0 column.toNat
  | 29 => ofRowE8 column.toNat
  | 30 => ofRowF0 column.toNat
  | _ => ofRowF8 column.toNat

/-- Rows `A0` to `B8` of the second map: bits, double shifts, products and scans. -/
def ofBitRows (opcode : Nat) : Option Instruction :=
  match opcode with
  | 0xA3 => some (.bitByRegister .test)
  | 0xA4 => some (.doubleShift .left .immediate)
  | 0xA5 => some (.doubleShift .left .counter)
  | 0xAB => some (.bitByRegister .set)
  | 0xAC => some (.doubleShift .right .immediate)
  | 0xAD => some (.doubleShift .right .counter)
  | 0xAF => some .multiplyRegister
  | 0xB3 => some (.bitByRegister .reset)
  | 0xBA => some .bitByImmediate
  | 0xBB => some (.bitByRegister .complement)
  | 0xBC => some (.bitScan .forward)
  | 0xBD => some (.bitScan .reverse)
  | _ => none

/-- The instruction of an opcode of two bytes, by its second byte. -/
def decodeExtended (opcode : Byte) : Except Feature Instruction :=
  let row := (opcode.extractLsb' 4 4).toNat
  let code := opcode.extractLsb' 0 4
  let found? :=
    if row = 8 then some (.jumpIf code false)
    else if row = 9 then some (.setCondition code)
    else if row = 12 ∧ 8 ≤ code then some (.swapBytes (.ofBits (opcode.extractLsb' 0 3)))
    else ofBitRows opcode.toNat
  match found? with
  | some instruction => .ok instruction
  | none => .error .twoByteOpcode

end Instruction

/-! ## Running -/

namespace Exec

variable {H : Type}

/-- The width of operands of a size. -/
def widthOf (p : Prefixes) : Size → Exec H Width
  | .byte => return .byte
  | .full => operandWidth p

variable [Host H]

/-- Runs an instruction. -/
def runInstruction (p : Prefixes) : Instruction → Exec H Unit
  | .aluToOperand size op => do aluToOperand p (← widthOf p size) op
  | .aluToRegister size op => do aluToRegister p (← widthOf p size) op
  | .aluAccumulator size op => do aluAccumulator p (← widthOf p size) op
  | .aluImmediate size short => do aluImmediate p (← widthOf p size) short
  | .testRegister size => do testRegister p (← widthOf p size)
  | .testAccumulator size => do testAccumulator p (← widthOf p size)
  | .incrementRegister r => do incrementRegister p (← operandWidth p) r
  | .decrementRegister r => do decrementRegister p (← operandWidth p) r
  | .incrementByte => incrementByte p
  | .unaryGroup size => do unaryGroup p (← widthOf p size)
  | .indirectGroup => do indirectGroup p (← operandWidth p)
  | .multiplyRegister => do multiplyRegister p (← operandWidth p)
  | .multiplyImmediate short => do multiplyImmediate p (← operandWidth p) short
  | .setCondition code => setCondition p code
  | .changeFlag change => changeFlag p change
  | .shiftGroup size count => do shiftGroup p (← widthOf p size) count
  | .doubleShift direction count => do doubleShiftOperand p (← operandWidth p) direction count
  | .bitScan order => do bitScan p (← operandWidth p) order
  | .bitByRegister op => do bitByRegister p (← operandWidth p) op
  | .bitByImmediate => do bitByImmediate p (← operandWidth p)
  | .swapBytes r => swapBytes p r
  | .pushRegister r => do pushRegister p (← operandWidth p) r
  | .popRegister r => do popRegister p (← operandWidth p) r
  | .pushImmediate short => do pushImmediate p (← operandWidth p) short
  | .popOperand => do popOperand p (← operandWidth p)
  | .pushAll => do pushAll p (← operandWidth p)
  | .popAll => do popAll p (← operandWidth p)
  | .compareStrings size => do compareStrings p (← widthOf p size)
  | .scanString size => do scanString p (← widthOf p size)
  | .input size port => do input p (← widthOf p size) port
  | .output size port => do output p (← widthOf p size) port
  | .inputString size => do inputString p (← widthOf p size)
  | .outputString size => do outputString p (← widthOf p size)
  | .jump short => do jump p (← operandWidth p) short
  | .jumpIf code short => do jumpIf p (← operandWidth p) code short
  | .loop mode => do loop p (← operandWidth p) mode
  | .jumpIfCounterZero => do jumpIfCounterZero p (← operandWidth p)
  | .call => do call p (← operandWidth p)
  | .ret => do ret p (← operandWidth p)
  | .retReleasing => do retReleasing p (← operandWidth p)
  | .far transfer => do farImmediate p (← operandWidth p) transfer
  | .retFar => do retFar p (← operandWidth p)
  | .retFarReleasing => do retFarReleasing p (← operandWidth p)
  | .escape number => escape p number
  | .wait => wait p

end Exec

end Ia32
