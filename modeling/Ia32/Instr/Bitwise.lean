import Ia32.Bits
import Ia32.Exec.Operand
import Ia32.Shift

/-!
# Shifts and bit instructions

Shifts and rotates of an operand, double shifts, bit scans, single bits, and the
reversal of a register's bytes.  A shift that changes nothing does not write its
operand, but it reads it.
-/

namespace Ia32.Exec

variable {H : Type}

/-! ## Shifts -/

/-- Where the count of a shift comes from. -/
inductive CountSource where
  /-- It is one. -/
  | one
  /-- It is in the low byte of the counter. -/
  | counter
  /-- It follows in the code. -/
  | immediate
deriving DecidableEq, Repr

/-- Applies a shift to a value under the flags.  The answer is none when nothing changes. -/
def shiftValue (f : Dword → Dword → Option Outcome) (value : Dword) : Exec H (Option Dword) :=
  updateWith fun s =>
    match f s.eflags value with
    | some outcome => (some outcome.result, { s with eflags := outcome.flags })
    | none => (none, s)

variable [Host H]

/-- The count of a shift, modulo 32. -/
def shiftCount (source : CountSource) : Exec H Nat := do
  let count ←
    match source with
    | .one => pure 1
    | .counter => view (·.reg .byte Reg.cl)
    | .immediate => fetch .byte
  return (count &&& 0x1F).toNat

/-- Replaces an operand by its shift. -/
def shiftOperand (w : Width) (place : Operand) (f : Dword → Dword → Option Outcome) :
    Exec H Unit := do
  match ← shiftValue f (← readOperand w place) with
  | some result => writeOperand w place result
  | none => pure ()

/-- Shifts or rotates an operand. -/
def shiftGroup (p : Prefixes) (w : Width) (source : CountSource) : Exec H Unit := do
  let (m, place) ← fetchOperand p
  let count ← shiftCount source
  checkLock p
  shiftOperand w place fun flags value => (ShiftOp.ofBits m.reg).apply w flags value count

/-- Shifts an operand and fills it from a register. -/
def doubleShiftOperand (p : Prefixes) (w : Width) (direction : Direction)
    (source : CountSource) : Exec H Unit := do
  let (m, place) ← fetchOperand p
  let count ← shiftCount source
  checkLock p
  let fill ← view (·.reg w m.firstRegister)
  shiftOperand w place fun flags value => doubleShift w direction flags value fill count

/-! ## Scans -/

/-- The message about a bit scan with a repeat marker. -/
def scanMessage (p : Prefixes) (order : ScanOrder) : String :=
  let name := match order with
    | .forward => "BSF"
    | .reverse => "BSR"
  let start := Hex.upper 8 p.start.toNat
  s!"REP {name} at {start} executed as plain bit scan"

/-- Does what the configuration says about a bit scan with a repeat marker. -/
def checkRepeatedScan (p : Prefixes) (order : ScanOrder) : Exec H Unit := do
  if p.repeats.isSome then
    match (← get).config.repeatedScan with
    | .invalidOpcode => throw .invalidOpcode
    | .warnAndIgnore => note .stubs .warn fun _ => scanMessage p order

/-- Writes the index of the first one of an operand to a register.  Without a one the register
stays and the zero flag is set. -/
def bitScan (p : Prefixes) (w : Width) (order : ScanOrder) : Exec H Unit := do
  let (m, place) ← fetchOperand p
  checkLock p
  checkRepeatedScan p order
  match scan? w order (← readOperand w place) with
  | some index =>
    update fun s =>
      (s.setFlag Flags.zero false).setReg w m.firstRegister (BitVec.ofNat 32 index)
  | none => update (·.setFlag Flags.zero true)

/-! ## Single bits -/

/-- Copies a bit of an operand to carry, and changes the bit. -/
def bitOperand (w : Width) (op : BitOp) (place : Operand) (index : Nat) : Exec H Unit := do
  let mask := (1 : Dword) <<< index
  let value ← readOperand w place
  update (·.setFlag Flags.carry (value &&& mask != 0))
  if op ≠ .test then writeOperand w place (op.apply value mask)

/-- Refuses a lock on an instruction that does not change memory. -/
def checkLockOnBit (p : Prefixes) (op : BitOp) (place : Operand) : Exec H Unit :=
  if op = .test then checkLock p else checkLockOn p place

/-- The place of the unit that holds a bit of a bit string. -/
def unitPlace (w : Width) (k : Dword) : Operand → Operand
  | .memory seg offset => .memory seg (offset + unitOffset w k)
  | .register r => .register r

/-- Works on the bit whose number is in a register.  In memory the number counts from the
operand on, in either direction. -/
def bitByRegister (p : Prefixes) (w : Width) (op : BitOp) : Exec H Unit := do
  let (m, place) ← fetchOperand p
  checkLockOnBit p op place
  let k ← view (·.reg w m.firstRegister)
  bitOperand w op (unitPlace w k place) (unitIndex w k)

/-- Works on the bit whose number follows in the code, modulo the width. -/
def bitByImmediate (p : Prefixes) (w : Width) : Exec H Unit := do
  let m := ModeByte.ofByte (← fetch8)
  if m.reg < 4 then throw .invalidOpcode
  let op := BitOp.ofBits (m.reg.setWidth 2)
  let place ← operand p m
  let k ← fetch .byte
  checkLockOnBit p op place
  bitOperand w op place (unitIndex w k)

/-! ## Byte order -/

/-- Reverses the bytes of a register. -/
def swapBytes (p : Prefixes) (r : Reg) : Exec H Unit := do
  checkLock p
  update fun s => s.setReg .dword r (reverseBytes (s.reg .dword r))

end Ia32.Exec
