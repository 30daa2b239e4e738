import Ia32.Float.Extended

/-!
# Comparison

Numbers compare by value: the two zeros are equal, and a NaN is unordered with
everything.
-/

namespace Ia32

/-- How two numbers compare. -/
inductive Relation where
  /-- The first is less. -/
  | less
  /-- They are equal. -/
  | equal
  /-- The first is greater. -/
  | greater
  /-- One of them is a NaN. -/
  | unordered
deriving DecidableEq, Repr

/-- What a comparison says about numbers in some order. -/
def Relation.ofOrdering : Ordering → Relation
  | .lt => .less
  | .eq => .equal
  | .gt => .greater

namespace Extended

/-- A number that orders magnitudes: the exponent field above the significand. -/
def magnitudeKey (x : Extended) : Nat :=
  if x.isZero then 0 else x.exponent.toNat <<< 64 ||| x.significand.toNat

/-- How two numbers compare.  Of two negative numbers the one with the larger magnitude is less. -/
def compare (a b : Extended) : Relation :=
  if a.isNan || b.isNan then .unordered
  else if a.isZero && b.isZero then .equal
  else
    let negative := a.sign && !a.isZero
    if negative != (b.sign && !b.isZero) then
      if negative then .less else .greater
    else
      let order := Ord.compare a.magnitudeKey b.magnitudeKey
      .ofOrdering (if negative then order.swap else order)

end Extended

end Ia32
