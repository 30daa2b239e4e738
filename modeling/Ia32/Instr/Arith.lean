import Ia32.Alu
import Ia32.Exec.Operand
import Ia32.Multiply

/-!
# Integer arithmetic

The two-operand operations, tests, increments, negations, products and
quotients, and the instructions that set single flags.  A lock is allowed only
on instructions that change an operand in memory.  A refused lock leaves no
trace, wherever it is found.
-/

namespace Ia32.Exec

variable {H : Type}

/-! ## Two operands -/

/-- Computes a two-operand operation and sets the flags. -/
def alu (w : Width) (op : AluOp) (a b : Dword) : Exec H Dword :=
  updateWith fun s =>
    let (result, flags) := op.apply w s.eflags a b
    (result, { s with eflags := flags })

/-- Computes a function of one value and the flags, and sets the flags. -/
def unary (f : Dword → Dword → Dword × Dword) (value : Dword) : Exec H Dword :=
  updateWith fun s =>
    let (result, flags) := f s.eflags value
    (result, { s with eflags := flags })

/-- Sets the flags for the bitwise and of two values. -/
def testValues (w : Width) (a b : Dword) : Exec H Unit :=
  update fun s => { s with eflags := Flags.afterLogic w s.eflags (w.truncate (a &&& b)) }

/-- An operation on a register and a value. -/
def aluRegister (w : Width) (op : AluOp) (r : Reg) (b : Dword) : Exec H Unit := do
  let result ← alu w op (← view (·.reg w r)) b
  if op.writesBack then update (·.setReg w r result)

variable [Host H]

/-- An operation on an operand and a value.  A comparison in memory refuses a lock after it has
read its operand. -/
def aluOperand (p : Prefixes) (w : Width) (op : AluOp) (place : Operand) (b : Dword) :
    Exec H Unit := do
  match place with
  | .register r =>
    checkLock p
    aluRegister w op r b
  | .memory seg offset =>
    let a ← load w seg offset
    if !op.writesBack then checkLock p
    let result ← alu w op a b
    if op.writesBack then store w seg offset result

/-- An operation on an operand and a register. -/
def aluToOperand (p : Prefixes) (w : Width) (op : AluOp) : Exec H Unit := do
  let (m, place) ← fetchOperand p
  aluOperand p w op place (← view (·.reg w m.firstRegister))

/-- An operation on a register and an operand. -/
def aluToRegister (p : Prefixes) (w : Width) (op : AluOp) : Exec H Unit := do
  let (m, place) ← fetchOperand p
  checkLock p
  aluRegister w op m.firstRegister (← readOperand w place)

/-- An operation on the accumulator and an immediate. -/
def aluAccumulator (p : Prefixes) (w : Width) (op : AluOp) : Exec H Unit := do
  let value ← fetch w
  checkLock p
  aluRegister w op Reg.eax value

/-- An operation on an operand and an immediate. -/
def aluImmediate (p : Prefixes) (w : Width) (short : Bool) : Exec H Unit := do
  let (m, place) ← fetchOperand p
  let value ← fetchImmediate w short
  aluOperand p w (.ofBits m.reg) place value

/-! ## Tests -/

/-- Tests the bits of an operand.  An operand in memory is read before a lock is refused. -/
def testOperand (p : Prefixes) (w : Width) (place : Operand) (b : Dword) : Exec H Unit := do
  match place with
  | .register r =>
    checkLock p
    testValues w (← view (·.reg w r)) b
  | .memory seg offset =>
    let a ← load w seg offset
    checkLock p
    testValues w a b

/-- Tests an operand against a register. -/
def testRegister (p : Prefixes) (w : Width) : Exec H Unit := do
  let (m, place) ← fetchOperand p
  testOperand p w place (← view (·.reg w m.firstRegister))

/-- Tests the accumulator against an immediate. -/
def testAccumulator (p : Prefixes) (w : Width) : Exec H Unit := do
  let value ← fetch w
  checkLock p
  testValues w (← view (·.reg w Reg.eax)) value

/-! ## One operand -/

/-- Replaces an operand by a function of it. -/
def modifyOperand (p : Prefixes) (w : Width) (place : Operand)
    (f : Dword → Dword → Dword × Dword) : Exec H Unit := do
  checkLockOn p place
  let result ← unary f (← readOperand w place)
  writeOperand w place result

/-- Inverts the bits of an operand.  The flags stay. -/
def complement (w : Width) (flags value : Dword) : Dword × Dword := (w.truncate (~~~value), flags)

/-- Adds one to a register. -/
def incrementRegister (p : Prefixes) (w : Width) (r : Reg) : Exec H Unit :=
  modifyOperand p w (.register r) (increment w)

/-- Takes one from a register. -/
def decrementRegister (p : Prefixes) (w : Width) (r : Reg) : Exec H Unit :=
  modifyOperand p w (.register r) (decrement w)

/-- Adds one to a byte, or takes one from it. -/
def incrementByte (p : Prefixes) : Exec H Unit := do
  let (m, place) ← fetchOperand p
  match m.reg.toNat with
  | 0 => modifyOperand p .byte place (increment .byte)
  | 1 => modifyOperand p .byte place (decrement .byte)
  | _ => throw .invalidOpcode

/-! ## Products and quotients -/

/-- The accumulator pair: a byte and the byte above it, or two registers. -/
def accumulatorPair (w : Width) (s : Processor) : Pair :=
  match w with
  | .byte => ⟨s.reg .byte Reg.eax, s.reg .byte Reg.ah⟩
  | _ => ⟨s.reg w Reg.eax, s.reg w Reg.edx⟩

/-- Writes the accumulator pair. -/
def setAccumulatorPair (w : Width) (low high : Dword) (s : Processor) : Processor :=
  match w with
  | .byte => (s.setReg .byte Reg.eax low).setReg .byte Reg.ah high
  | _ => (s.setReg w Reg.eax low).setReg w Reg.edx high

/-- Sets carry and overflow. -/
def setCarryOverflow (on : Bool) (s : Processor) : Processor :=
  (s.setFlag Flags.carry on).setFlag Flags.overflow on

/-- The unsigned product of the accumulator and an operand. -/
def multiply (p : Prefixes) (w : Width) (place : Operand) : Exec H Unit := do
  checkLock p
  let b ← readOperand w place
  update fun s =>
    let product := w.product (s.reg w Reg.eax) b
    setCarryOverflow (product.high != 0) (setAccumulatorPair w product.low product.high s)

/-- The signed product of the accumulator and an operand. -/
def signedMultiply (p : Prefixes) (w : Width) (place : Operand) : Exec H Unit := do
  checkLock p
  let b ← readOperand w place
  update fun s =>
    let a := s.reg w Reg.eax
    let product := w.signedProduct a b
    let s := setAccumulatorPair w product.low product.high s
    setCarryOverflow (w.signedProductOverflows a b)
      (s.setFlag Flags.sign (w.isNegative product.low))

/-- Writes the low half of the signed product of two values to a register. -/
def storeProduct (w : Width) (r : Reg) (a b : Dword) : Exec H Unit :=
  update fun s =>
    let low := (w.signedProduct a b).low
    setCarryOverflow (w.signedProductOverflows a b)
      ((s.setReg w r low).setFlag Flags.sign (w.isNegative low))

/-- The signed product of a register and an operand. -/
def multiplyRegister (p : Prefixes) (w : Width) : Exec H Unit := do
  let (m, place) ← fetchOperand p
  checkLock p
  let b ← readOperand w place
  storeProduct w m.firstRegister (← view (·.reg w m.firstRegister)) b

/-- The signed product of an operand and an immediate. -/
def multiplyImmediate (p : Prefixes) (w : Width) (short : Bool) : Exec H Unit := do
  let (m, place) ← fetchOperand p
  let value ← fetchImmediate w short
  checkLock p
  storeProduct w m.firstRegister (← readOperand w place) value

/-- The message about a division that has no result. -/
def divisionMessage (p : Prefixes) (w : Width) (name : String) (failure : DivisionFailure) :
    String :=
  let reason := match failure with
    | .zeroDivisor => "by zero"
    | .quotientOverflow => "quotient overflow"
  let start := Hex.upper 8 p.start.toNat
  s!"#DE at {start}: {name} {reason} {w.bits}-bit"

/-- Divides the accumulator pair by an operand. -/
def divideBy (p : Prefixes) (w : Width) (place : Operand) (name : String)
    (division : Pair → Dword → Except DivisionFailure Division) : Exec H Unit := do
  checkLock p
  let divisor ← readOperand w place
  match division (← view (accumulatorPair w)) divisor with
  | .ok d => update (setAccumulatorPair w d.quotient d.remainder)
  | .error failure =>
    note .faults .debug fun _ => divisionMessage p w name failure
    throw .divideError

/-- The group of one-operand instructions: tests, complements, negations, products and
quotients. -/
def unaryGroup (p : Prefixes) (w : Width) : Exec H Unit := do
  let (m, place) ← fetchOperand p
  match m.reg.toNat with
  | 0 | 1 => testOperand p w place (← fetch w)
  | 2 => modifyOperand p w place (complement w)
  | 3 => modifyOperand p w place (negate w)
  | 4 => multiply p w place
  | 5 => signedMultiply p w place
  | 6 => divideBy p w place "DIV" w.divide
  | _ => divideBy p w place "IDIV" w.signedDivide

/-! ## Conditions and single flags -/

/-- Writes whether a condition holds. -/
def setCondition (p : Prefixes) (code : BitVec 4) : Exec H Unit := do
  let (_, place) ← fetchOperand p
  checkLock p
  let holds ← view fun s => Flags.condition s.eflags code
  writeOperand .byte place (if holds then 1 else 0)

/-- What an instruction does to a single flag. -/
inductive FlagChange where
  /-- Inverts carry. -/
  | invertCarry
  /-- Clears carry. -/
  | clearCarry
  /-- Sets carry. -/
  | setCarry
  /-- Clears direction. -/
  | clearDirection
  /-- Sets direction. -/
  | setDirection
deriving DecidableEq, Repr

/-- The flags after a change of a single flag. -/
def FlagChange.apply : FlagChange → Dword → Dword
  | .invertCarry, flags => flags ^^^ Flags.carry
  | .clearCarry, flags => Flags.assign flags Flags.carry false
  | .setCarry, flags => Flags.assign flags Flags.carry true
  | .clearDirection, flags => Flags.assign flags Flags.direction false
  | .setDirection, flags => Flags.assign flags Flags.direction true

/-- Changes a single flag. -/
def changeFlag (p : Prefixes) (change : FlagChange) : Exec H Unit := do
  checkLock p
  update fun s => { s with eflags := change.apply s.eflags }

end Ia32.Exec
