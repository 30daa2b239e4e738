import Ia32.Float.Compare
import Ia32.Float.Elementary.Double
import Ia32.Float.Remainder

/-!
# Operations of the floating-point unit

The operations that the unit offers on numbers: arithmetic with its reversed
forms, scaling by a number, and the elementary functions.  An elementary
function takes its operands as doubles and gives a double.  Its result counts as
inexact unless it is known to be exact.
-/

namespace Ia32

/-! ## Arithmetic -/

/-- An arithmetic operation. -/
inductive FloatOp where
  /-- The sum. -/
  | add
  /-- The product. -/
  | mul
  /-- The difference. -/
  | sub
  /-- The difference with the operands exchanged. -/
  | subReversed
  /-- The quotient. -/
  | div
  /-- The quotient with the operands exchanged. -/
  | divReversed
deriving DecidableEq, Repr

namespace FloatOp

/-- The operation with a three-bit number.  Numbers two and three are comparisons. -/
def ofBits? (n : BitVec 3) : Option FloatOp :=
  match n.toNat with
  | 0 => some .add
  | 1 => some .mul
  | 4 => some .sub
  | 5 => some .subReversed
  | 6 => some .div
  | 7 => some .divReversed
  | _ => none

/-- The operation with its operands exchanged. -/
def swapped : FloatOp → FloatOp
  | .sub => .subReversed
  | .subReversed => .sub
  | .div => .divReversed
  | .divReversed => .div
  | op => op

/-- The result of an operation. -/
def apply (op : FloatOp) (mode : Rounding) (a b : Extended) : Rounded :=
  match op with
  | .add => a.add mode b
  | .mul => a.mul mode b
  | .sub => a.sub mode b
  | .subReversed => b.sub mode a
  | .div => a.div mode b
  | .divReversed => b.div mode a

/-- The dividend and the divisor, if the operation is a division. -/
def quotientOf? (op : FloatOp) (a b : Extended) : Option (Extended × Extended) :=
  match op with
  | .div => some (a, b)
  | .divReversed => some (b, a)
  | _ => none

end FloatOp

namespace Extended

/-! ## NaN operands -/

/-- The result when one of the operands is a NaN: the first NaN, made quiet. -/
def firstNan? (a b : Extended) : Option Rounded :=
  if a.isNan || b.isNan then
    some ⟨(if a.isNan then a else b).quiet,
      if a.isSignaling || b.isSignaling then Exception.invalid else 0⟩
  else none

/-! ## Scaling -/

/-- A number scaled by an infinite power. -/
def scaleByInfinity (a : Extended) (up : Bool) : Rounded :=
  if up then if a.isZero then .invalid else .exact (infinity a.sign)
  else if a.isInfinite then .invalid
  else .exact (zero a.sign)

/-- A number scaled by the integral part of another. -/
def scaleByNumber (mode : Rounding) (a b : Extended) : Rounded :=
  match firstNan? a b with
  | some r => r
  | none =>
    if b.isInfinite then a.scaleByInfinity (!b.sign)
    else a.scaleBy mode (limitPower ((b.toInt? .zero).1.getD 0))

/-! ## Elementary functions -/

/-- The result of an elementary function. -/
def approximate (value : Extended) (exact : Bool) : Rounded :=
  ⟨value, if exact then 0 else Exception.precision⟩

/-- Two to the power of a number, less one. -/
def powerLessOne (x : Extended) : Rounded :=
  match firstNan? x x with
  | some r => r
  | none =>
    if x.isInfinite then .exact (if x.sign then one.neg else x)
    else approximate (Elementary.expm1 (Elementary.mul x.toDouble Elementary.lnTwo)) x.isZero

/-- The product of `y` and the logarithm of `x` to base two. -/
def timesLogarithm (y x : Extended) : Rounded :=
  match firstNan? x y with
  | some r => r
  | none =>
    if x.isZero then
      if y.isZero then .invalid else ⟨infinity (!y.sign), Exception.zeroDivide⟩
    else if x.sign then .invalid
    else
      approximate (Elementary.mul y.toDouble (Elementary.log2 x.toDouble))
        (x.compare one == .equal || y.isZero)

/-- The angle of the point with abscissa `x` and ordinate `y`. -/
def angle (y x : Extended) : Rounded :=
  match firstNan? x y with
  | some r => r
  | none => approximate (Elementary.atan2 y.toDouble x.toDouble) (y.isZero && !x.sign)

end Extended

/-- A function of an angle. -/
inductive Trig where
  /-- The sine. -/
  | sin
  /-- The cosine. -/
  | cos
  /-- The tangent. -/
  | tan
deriving DecidableEq, Repr

/-- The value of a function of an angle.  The sine and the tangent of a zero are that zero. -/
def Trig.apply (f : Trig) (x : Extended) : Rounded :=
  let value :=
    match f with
    | .sin => if x.isZero then x else Elementary.sin x.toDouble
    | .cos => Elementary.cos x.toDouble
    | .tan => if x.isZero then x else Elementary.tan x.toDouble
  Extended.approximate value x.isZero

/-- The least exponent field of an angle that is too large. -/
def Trig.exponentLimit : Word := 0x3FFF + 63

end Ia32
