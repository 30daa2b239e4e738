import Ia32.Fpu.Instruction
import Ia32.Instr.Fpu.Checks

/-!
# Computing with the register stack

Arithmetic, comparisons, the functions of one and two registers.  Each function
here is what an instruction does once the unit is ready for it.  Exceptions of
the operands are raised before anything is written, exceptions of the result
after the result is written and before anything is pushed or popped.
-/

namespace Ia32.FloatExec

variable {H : Type}

/-! ## Numbers in memory -/

section Memory

variable [Host H]

/-- A number read from memory. -/
structure Loaded where
  /-- The number. -/
  value : Extended
  /-- Whether it is denormal in the format of memory. -/
  denormal : Bool
deriving DecidableEq, Repr

/-- The number in some bytes. -/
def Loaded.ofBytes (format : NumberFormat) (bytes : List Byte) : Loaded :=
  let bits := littleEndian bytes
  match format with
  | .real .single => ⟨.decode .single bits, Extended.isSubnormal .single bits⟩
  | .real .double => ⟨.decode .double bits, Extended.isSubnormal .double bits⟩
  | .real .extended => ⟨.ofBytes bytes, false⟩
  | .int format => ⟨.ofInt (BitVec.ofNat (8 * format.bytes) bits).toInt, false⟩

/-- Reads a number from memory. -/
def readNumber (seg : Seg) (offset : Dword) (format : NumberFormat) : Exec H Loaded :=
  return .ofBytes format (← Exec.loadBytes seg offset format.bytes)

end Memory

/-! ## Arithmetic -/

/-- Whether a quotient raises an exception for its divisor before it is computed. -/
def raisesZeroDivide (config : Config) (dividend divisor : Extended) : Bool :=
  divisor.isZero && (config.zeroDivisorAlwaysRaises || dividend.isFiniteNonzero)

/-- Raises the exception of a zero divisor. -/
def checkDivisor (p : Prefixes) (op : FloatOp) (a b : Extended) : FloatExec H Unit := do
  if let some (dividend, divisor) := op.quotientOf? a b then
    let m : Machine H ← (get : Exec H (Machine H))
    if raisesZeroDivide m.config dividend divisor then raise p Exception.zeroDivide

/-- Writes the result of an operation to a register. -/
def storeResult (p : Prefixes) (i : Nat) (r : Rounded) : FloatExec H Unit := do
  update (·.store i r.value)
  raiseAfter p r.exceptions

/-- Computes an operation into a register. -/
def arith (p : Prefixes) (op : FloatOp) (i : Nat) (a b : Extended) : FloatExec H Unit := do
  checkDivisor p op a b
  let r := op.apply (← view (·.rounding)) a b
  storeResult p i { r with exceptions := r.exceptions &&& ~~~Exception.zeroDivide }

/-- Arithmetic on the top register and a number from memory. -/
def arithLoaded (p : Prefixes) (op : FloatOp) (loaded : Loaded) : FloatExec H Unit := do
  requireFull p 0
  if loaded.denormal then raise p Exception.denormal
  arith p op 0 (← view (·.value 0)) loaded.value

/-- Arithmetic on the top register and another one. -/
def arithTop (p : Prefixes) (op : FloatOp) (i : Nat) : FloatExec H Unit := do
  requireFull p 0
  requireFull p i
  arith p op 0 (← view (·.value 0)) (← view (·.value i))

/-- Arithmetic on a register and the top one. -/
def arithInto (p : Prefixes) (op : FloatOp) (i : Nat) (pops : Bool) : FloatExec H Unit := do
  requireFull p 0
  requireFull p i
  arith p op i (← view (·.value i)) (← view (·.value 0))
  popIf pops

/-! ## Comparisons -/

/-- The conditions that tell how two numbers compare. -/
def relationConditions : Relation → Word
  | .greater => 0
  | .less => Status.c0
  | .equal => Status.c3
  | .unordered => Status.comparison

/-- Sets the conditions of a comparison. -/
def setComparison (bits : Word) : FloatExec H Unit :=
  update fun f => (f.setCondition Status.comparison false).setCondition bits true

/-- Compares the top register with a number from memory. -/
def compareLoaded (p : Prefixes) (loaded : Loaded) (pops : Bool) : FloatExec H Unit := do
  setComparison Status.comparison
  requireFull p 0
  let a ← view (·.value 0)
  checkOperand p a false
  checkOperand p loaded.value loaded.denormal
  setComparison (relationConditions (a.compare loaded.value))
  popIf pops

/-- Compares the top register with another one and pops some. -/
def compare (p : Prefixes) (i pops : Nat) : FloatExec H Unit := do
  requireFull p 0
  requireFull p i
  setComparison Status.comparison
  let a ← view (·.value 0)
  let b ← view (·.value i)
  checkOperand p a false
  checkOperand p b false
  setComparison (relationConditions (a.compare b))
  update (Nat.repeat Fpu.pop pops)

/-- Compares the top register with zero. -/
def test (p : Prefixes) : FloatExec H Unit := do
  setComparison Status.comparison
  requireFull p 0
  let a ← view (·.value 0)
  checkOperand p a false
  setComparison (relationConditions (a.compare (.zero false)))

/-- The conditions that tell the class of a register. -/
def classConditions : FloatClass → Word
  | .unsupported => 0
  | .quietNan | .signalingNan => Status.c0
  | .normal => Status.c2
  | .infinity => Status.c2 ||| Status.c0
  | .zero => Status.c3
  | .denormal => Status.c3 ||| Status.c2

/-- Classifies the top register, which may be empty.  Condition one is its sign. -/
def examine : FloatExec H Unit := do
  let x ← view (·.st 0)
  update (·.setCondition Status.c1 x.sign)
  if (← view (·.tag 0)) = .empty then setComparison (Status.c3 ||| Status.c0)
  else setComparison (classConditions x.classify)

/-! ## One register -/

/-- Replaces the top register by a function of it that raises nothing. -/
def mapTop (p : Prefixes) (f : Extended → Extended) : FloatExec H Unit := do
  requireFull p 0
  let x ← view (·.value 0)
  update (·.store 0 (f x))

/-- The square root of the top register. -/
def sqrt (p : Prefixes) : FloatExec H Unit := do
  requireFull p 0
  let x ← view (·.value 0)
  checkDenormal p x
  storeResult p 0 (x.sqrt (← view (·.rounding)))

/-- Rounds the top register to an integral number. -/
def roundToIntegral (p : Prefixes) : FloatExec H Unit := do
  requireFull p 0
  let x ← view (·.value 0)
  if x.isNan then
    if x.isSignaling then raise p Exception.invalid
    update (·.store 0 x.quiet)
  else
    checkDenormal p x
    let (value, inexact) := x.roundToIntegral (← view (·.rounding))
    storeResult p 0 (Extended.approximate value (!inexact))

/-- Two to the power of the top register, less one. -/
def powerLessOne (p : Prefixes) : FloatExec H Unit := do
  requireFull p 0
  let x ← view (·.value 0)
  checkOperand p x false
  storeResult p 0 x.powerLessOne

/-! ## Functions of an angle -/

/-- Writes a result without a value to the top register.  A tangent leaves it twice. -/
def storeTwice (f : Trig) (x : Extended) : FloatExec H Unit := do
  update (·.store 0 x)
  if f = .tan then update (·.pushNumber x)

/-- A function of a finite angle that is not too large.  A tangent is followed by one. -/
def trigFinite (p : Prefixes) (f : Trig) (x : Extended) : FloatExec H Unit := do
  update (·.setCondition Status.c2 false)
  checkDenormal p x
  storeResult p 0 (f.apply x)
  if f = .tan then update (·.pushNumber .one)

/-- A function of the angle in the top register.  Condition two says that the angle is too
large, and then it stays. -/
def trig (p : Prefixes) (f : Trig) : FloatExec H Unit := do
  requireFull p 0
  if f = .tan then requireRoom p
  let x ← view (·.value 0)
  if x.isNan then
    if x.isSignaling then raise p Exception.invalid
    storeTwice f x.quiet
  else if x.isInfinite then
    raise p Exception.invalid
    update (·.setCondition Status.c2 false)
    storeTwice f .indefinite
  else if Trig.exponentLimit ≤ x.exponent then update (·.setCondition Status.c2 true)
  else trigFinite p f x

/-! ## Two registers -/

/-- Scales the top register by the one below it. -/
def scale (p : Prefixes) : FloatExec H Unit := do
  requireFull p 0
  requireFull p 1
  let a ← view (·.value 0)
  let b ← view (·.value 1)
  storeResult p 0 (a.scaleByNumber (← view (·.rounding)) b)

/-- The conditions after a step of a division: condition two says that more steps are needed,
and the others are the low bits of a complete quotient. -/
def remainderConditions (r : PartialRemainder) (f : Fpu) : Fpu :=
  let f := f.setCondition Status.c2 (!r.complete)
  if r.complete then
    ((f.setCondition Status.c1 (r.quotient.testBit 0)).setCondition
      Status.c3 (r.quotient.testBit 1)).setCondition Status.c0 (r.quotient.testBit 2)
  else f

/-- A step of the division of the top register by the one below it. -/
def remainder (p : Prefixes) : FloatExec H Unit := do
  requireFull p 0
  requireFull p 1
  let a ← view (·.value 0)
  let b ← view (·.value 1)
  checkDenormal p a
  checkDenormal p b
  let r := a.partialRemainder b
  raiseIfAmong p r.exceptions Exception.invalid
  update fun f => remainderConditions r (f.store 0 r.value)
  raiseAfter p (r.exceptions &&& ~~~Exception.invalid)

/-- Writes a function of the two top registers to the second one and pops the first. -/
def combine (p : Prefixes) (f : (y x : Extended) → Rounded) : FloatExec H Unit := do
  requireFull p 0
  requireFull p 1
  let r := f (← view (·.value 1)) (← view (·.value 0))
  raiseIfAmong p r.exceptions Exception.invalid
  raiseIfAmong p r.exceptions Exception.zeroDivide
  storeResult p 1 { r with exceptions := r.exceptions &&& Exception.precision }
  update Fpu.pop

end Ia32.FloatExec
