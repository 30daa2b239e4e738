import Ia32.Float.Arith

/-!
# Partial remainders

The remainder of a division is found in steps.  A step whose operands differ by
less than 64 in exponent finishes: it gives the remainder of the quotient cut
toward zero, and the quotient.  Any other step subtracts a multiple of the
divisor so that the exponent falls by 63 or more, and leaves the rest to the
next step.
-/

namespace Ia32

/-- What one step of a division leaves. -/
structure PartialRemainder where
  /-- The remainder so far. -/
  value : Extended
  /-- The quotient, when the division is complete. -/
  quotient : Nat
  /-- Whether the division is complete. -/
  complete : Bool
  /-- The exceptions, as bits of the status word. -/
  exceptions : Word
deriving DecidableEq, Repr

/-- A step that is complete, with a quotient of zero. -/
def PartialRemainder.done (r : Rounded) : PartialRemainder := ⟨r.value, 0, true, r.exceptions⟩

namespace Extended

/-- One step of the division of finite numbers that are not zero. -/
def remainderStep (a b : Extended) : PartialRemainder :=
  let distance := a.leadingExponent - b.leadingExponent
  let dividend := a.normalizedSignificand
  let divisor := b.normalizedSignificand
  if distance < 0 then .done (.exact a)
  else if distance < 64 then
    let dividend := dividend <<< distance.toNat
    ⟨ofExact a.sign (dividend % divisor) (b.leadingExponent - 63), dividend / divisor, true, 0⟩
  else
    ⟨ofExact a.sign (dividend <<< 63 % divisor) (a.leadingExponent - 126), 0, false, 0⟩

/-- One step of a division. -/
def partialRemainder (a b : Extended) : PartialRemainder :=
  match nanResult? a b with
  | some r => .done r
  | none =>
    if a.isInfinite || b.isZero then .done .invalid
    else if a.isZero || b.isInfinite then .done (.exact a)
    else remainderStep a b

end Extended

end Ia32
