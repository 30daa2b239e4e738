import Ia32.Flags

/-!
# Two-operand arithmetic

The eight operations that share one encoding.  `AluOp.apply` gives the result
and the flags after it.  A comparison is a subtraction whose result is thrown
away (`writesBack`).
-/

namespace Ia32

/-- A two-operand operation. -/
inductive AluOp where
  /-- Sum. -/
  | add
  /-- Bitwise or. -/
  | or
  /-- Sum and carry. -/
  | adc
  /-- Difference and borrow. -/
  | sbb
  /-- Bitwise and. -/
  | and
  /-- Difference. -/
  | sub
  /-- Bitwise exclusive or. -/
  | xor
  /-- Difference, of which only the flags are kept. -/
  | cmp
deriving DecidableEq, Repr

namespace AluOp

/-- The operation with a three-bit number. -/
def ofBits (n : BitVec 3) : AluOp :=
  match n.toNat with
  | 0 => .add
  | 1 => .or
  | 2 => .adc
  | 3 => .sbb
  | 4 => .and
  | 5 => .sub
  | 6 => .xor
  | _ => .cmp

/-- Whether the result is stored in the first operand. -/
def writesBack : AluOp → Bool
  | .cmp => false
  | _ => true

/-- The result of an operation on operands `a` and `b`, and the flags after it. -/
def apply (w : Width) (op : AluOp) (flags a b : Dword) : Dword × Dword :=
  let a := w.truncate a
  let b := w.truncate b
  let carryIn := flags &&& Flags.carry
  match op with
  | .add =>
    let r := w.truncate (a + b)
    (r, Flags.afterAdd w flags a b 0 r)
  | .adc =>
    let r := w.truncate (a + b + carryIn)
    (r, Flags.afterAdd w flags a b carryIn r)
  | .sub | .cmp =>
    let r := w.truncate (a - b)
    (r, Flags.afterSub w flags a b r)
  | .sbb =>
    let r := w.truncate (a + (~~~b &&& w.mask) + (1 - carryIn))
    (r, Flags.afterSub w flags a b r)
  | .and =>
    let r := a &&& b
    (r, Flags.afterLogic w flags r)
  | .or =>
    let r := a ||| b
    (r, Flags.afterLogic w flags r)
  | .xor =>
    let r := a ^^^ b
    (r, Flags.afterLogic w flags r)

end AluOp

/-- The sum of an operand and one, and the flags after it. -/
def increment (w : Width) (flags value : Dword) : Dword × Dword :=
  let r := w.truncate (value + 1)
  (r, Flags.afterInc w flags value r)

/-- An operand less one, and the flags after it. -/
def decrement (w : Width) (flags value : Dword) : Dword × Dword :=
  let r := w.truncate (value - 1)
  (r, Flags.afterDec w flags value r)

/-- The negation of an operand, and the flags after it. -/
def negate (w : Width) (flags value : Dword) : Dword × Dword :=
  let r := w.truncate (0 - value)
  (r, Flags.afterSub w flags 0 value r)

end Ia32
