import Ia32.Width

/-!
# Products and quotients

The one-operand forms work on a pair of values of the operand width: the product
of two values, or a dividend of twice the width.  A division fails when the
divisor is zero or the quotient does not fit the width.  Signed division rounds
toward zero, so the remainder has the sign of the dividend.
-/

namespace Ia32

/-- A double-width value, cut into two values of the operand width. -/
structure Pair where
  /-- The low half. -/
  low : Dword
  /-- The high half. -/
  high : Dword
deriving DecidableEq, Repr

namespace Width

/-- The product of two unsigned values. -/
def product (w : Width) (a b : Dword) : Pair :=
  let p := a.toNat * b.toNat
  ⟨w.truncate (BitVec.ofNat 32 p), BitVec.ofNat 32 (p >>> w.bits)⟩

/-- The product of two signed values. -/
def signedProduct (w : Width) (a b : Dword) : Pair :=
  let p := w.toInt a * w.toInt b
  ⟨w.truncate (BitVec.ofInt 32 p), w.truncate (BitVec.ofInt 32 (p >>> w.bits))⟩

/-- Whether the product of two signed values is beyond the range of the width. -/
def signedProductOverflows (w : Width) (a b : Dword) : Bool :=
  w.toInt (w.signedProduct a b).low != w.toInt a * w.toInt b

end Width

/-- Why a division has no result. -/
inductive DivisionFailure where
  /-- The divisor is zero. -/
  | zeroDivisor
  /-- The quotient is beyond the range of the width. -/
  | quotientOverflow
deriving DecidableEq, Repr

/-- A quotient and the remainder left over. -/
structure Division where
  /-- The quotient. -/
  quotient : Dword
  /-- The remainder. -/
  remainder : Dword
deriving DecidableEq, Repr

namespace Width

/-- The unsigned number that a pair stands for. -/
def ofPair (w : Width) (p : Pair) : Nat := p.low.toNat + p.high.toNat * Nat.pow 2 w.bits

/-- The signed number that a pair stands for. -/
def signedOfPair (w : Width) (p : Pair) : Int := Int.bmod (w.ofPair p) (Nat.pow 2 (2 * w.bits))

/-- Divides a pair by an unsigned value. -/
def divide (w : Width) (dividend : Pair) (divisor : Dword) : Except DivisionFailure Division :=
  if divisor = 0 then .error .zeroDivisor else
  let n := w.ofPair dividend
  let q := n / divisor.toNat
  if w.mask.toNat < q then .error .quotientOverflow else
  .ok ⟨BitVec.ofNat 32 q, BitVec.ofNat 32 (n % divisor.toNat)⟩

/-- The quotient of two signed numbers of 64 bits, if there is one in their range. -/
def checkedDivide? (dividend divisor : Int) : Option Int :=
  let q := Int.tdiv dividend divisor
  if divisor = 0 || Int.pow 2 63 ≤ q then none else some q

/-- Divides a pair by a signed value. -/
def signedDivide (w : Width) (dividend : Pair) (divisor : Dword) :
    Except DivisionFailure Division :=
  let d := w.toInt divisor
  if d = 0 then .error .zeroDivisor else
  let n := w.signedOfPair dividend
  let least := -Int.pow 2 (w.bits - 1)
  let greatest := Int.pow 2 (w.bits - 1) - 1
  match checkedDivide? n d with
  | none => .error .quotientOverflow
  | some q =>
    if least ≤ q && q ≤ greatest then
      .ok ⟨w.truncate (BitVec.ofInt 32 q), w.truncate (BitVec.ofInt 32 (n - q * d))⟩
    else .error .quotientOverflow

end Width

end Ia32
