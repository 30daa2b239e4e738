import Ia32.Float.Rounding

/-!
# Arithmetic

Sum, difference, product, quotient and square root.  Each rounds its exact value
once.  A NaN among the operands is the result, made quiet.  Of two NaNs the one
with the larger significand wins.
-/

namespace Ia32.Extended

/-! ## NaN operands -/

/-- Of two NaNs the one with the larger significand below the top bit, else the one NaN. -/
def chooseNan (a b : Extended) : Extended :=
  if a.isNan && b.isNan then
    if (b.significand <<< 1) ≤ (a.significand <<< 1) then a else b
  else if a.isNan then a
  else b

/-- The result when one of the operands is a NaN. -/
def nanResult? (a b : Extended) : Option Rounded :=
  if a.isNan || b.isNan then
    some ⟨(chooseNan a b).quiet,
      if a.isSignaling || b.isSignaling then Exception.invalid else 0⟩
  else none

/-! ## Sums -/

/-- How many bits are added below the significands of a sum. -/
def guardBits : Nat := 62

/-- A significand with its guard bits, moved down by so many places. -/
def aligned (significand distance : Nat) : Nat :=
  let whole := significand <<< guardBits
  if distance = 0 then whole
  else if 127 ≤ distance then (whole != 0).toNat
  else
    let moved := whole >>> distance
    orSticky moved (moved <<< distance != whole)

/-- The sum of finite numbers that are not zero.  The first one has the larger exponent.  The sum
of opposite numbers is zero, and negative only when rounding down. -/
def addAligned (mode : Rounding) (big small : Extended) : Rounded :=
  let m := big.significand.toNat <<< guardBits
  let n := aligned small.significand.toNat (big.topExponent - small.topExponent).toNat
  let scale := big.topExponent - (guardBits + 63)
  if big.sign = small.sign then roundTo .extended mode big.sign (m + n) scale
  else if n < m then roundTo .extended mode big.sign (m - n) scale
  else if m < n then roundTo .extended mode small.sign (n - m) scale
  else .exact (zero (mode == .down))

/-- The sum of two numbers that are no NaNs. -/
def addNumbers (mode : Rounding) (a b : Extended) : Rounded :=
  if a.isInfinite then
    if b.isInfinite && a.sign != b.sign then .invalid else .exact a
  else if b.isInfinite then .exact (infinity b.sign)
  else if a.isZero && b.isZero then
    .exact (zero (if a.sign = b.sign then a.sign else mode == .down))
  else if a.isZero then .exact b
  else if b.isZero then .exact a
  else if b.topExponent ≤ a.topExponent then addAligned mode a b
  else addAligned mode b a

/-- The sum of two numbers. -/
def add (mode : Rounding) (a b : Extended) : Rounded :=
  (nanResult? a b).getD (addNumbers mode a b)

/-- The difference of two numbers. -/
def sub (mode : Rounding) (a b : Extended) : Rounded :=
  (nanResult? a b).getD (addNumbers mode a b.neg)

/-! ## Products and quotients -/

/-- The product of two numbers that are no NaNs. -/
def mulNumbers (mode : Rounding) (a b : Extended) : Rounded :=
  let sign := a.sign != b.sign
  if a.isInfinite || b.isInfinite then
    if a.isZero || b.isZero then .invalid else .exact (infinity sign)
  else if a.isZero || b.isZero then .exact (zero sign)
  else
    roundTo .extended mode sign (a.significand.toNat * b.significand.toNat) (a.scale + b.scale)

/-- The product of two numbers. -/
def mul (mode : Rounding) (a b : Extended) : Rounded :=
  (nanResult? a b).getD (mulNumbers mode a b)

/-- How many bits of a quotient are found after the first 64. -/
def extraBits : Nat := 8

/-- The significand of the quotient of two normalized ones, as a multiple of `2 ^ -72`.  It is
found in two divisions, the second of which goes on with the remainder of the first. -/
def quotient (dividend divisor : Nat) : Nat :=
  let dividend := dividend <<< 64
  let rest := (dividend % divisor) <<< extraBits
  let bits := (dividend / divisor) <<< extraBits ||| rest / divisor
  orSticky bits (rest % divisor != 0)

/-- The quotient of two numbers that are no NaNs. -/
def divNumbers (mode : Rounding) (a b : Extended) : Rounded :=
  let sign := a.sign != b.sign
  if a.isInfinite then
    if b.isInfinite then .invalid else .exact (infinity sign)
  else if b.isInfinite then .exact (zero sign)
  else if b.isZero then
    if a.isZero then .invalid else ⟨infinity sign, Exception.zeroDivide⟩
  else if a.isZero then .exact (zero sign)
  else
    roundTo .extended mode sign (quotient a.normalizedSignificand b.normalizedSignificand)
      (a.leadingExponent - b.leadingExponent - (64 + extraBits))

/-- The quotient of two numbers. -/
def div (mode : Rounding) (a b : Extended) : Rounded :=
  (nanResult? a b).getD (divNumbers mode a b)

/-! ## Square roots -/

/-- A root that is found bit by bit, from the digits of a radicand to base four. -/
structure RootSearch where
  /-- The bits that were found. -/
  root : Nat
  /-- By how much the digits that were taken exceed the square of the root. -/
  rest : Nat
deriving DecidableEq, Repr

namespace RootSearch

/-- Before any digit is taken. -/
def start : RootSearch := ⟨0, 0⟩

/-- Takes one more digit and finds one more bit. -/
def next (s : RootSearch) (digit : Nat) : RootSearch :=
  let rest := 4 * s.rest + digit
  let trial := 4 * s.root + 1
  if trial ≤ rest then ⟨2 * s.root + 1, rest - trial⟩ else ⟨2 * s.root, rest⟩

end RootSearch

/-- How many digits to base four a radicand has. -/
def radicandDigits : Nat := 33

/-- How many more digits are taken, which are zeros. -/
def fractionDigits : Nat := 34

/-- The digit of a radicand that has `place` digits after it. -/
def radicandDigit (radicand place : Nat) : Nat :=
  if fractionDigits ≤ place then radicand >>> (2 * (place - fractionDigits)) % 4 else 0

/-- Takes the last digits of a radicand, as many as are told. -/
def findRoot (radicand : Nat) : Nat → RootSearch → RootSearch
  | 0, s => s
  | place + 1, s => findRoot radicand place (s.next (radicandDigit radicand place))

/-- The integral square root of `radicand * 4 ^ 34`, with what its square leaves. -/
def squareRoot (radicand : Nat) : RootSearch :=
  findRoot radicand (radicandDigits + fractionDigits) .start

/-- The exponent of the bottom bit of the normalized significand. -/
def normalizedScale (x : Extended) : Int := x.leadingExponent - 63

/-- The normalized significand, with one more bit when its exponent is odd. -/
def radicand (x : Extended) : Nat := x.normalizedSignificand <<< (x.normalizedScale % 2).toNat

/-- The square root of a number. -/
def sqrt (mode : Rounding) (x : Extended) : Rounded :=
  if x.isNan then ⟨x.quiet, if x.isSignaling then Exception.invalid else 0⟩
  else if x.isZero then .exact x
  else if x.sign then .invalid
  else if x.isInfinite then .exact x
  else
    let search := squareRoot x.radicand
    roundTo .extended mode false (orSticky search.root (search.rest != 0))
      (x.normalizedScale / 2 - fractionDigits)

/-! ## Scaling and integral values -/

/-- The largest power by which a number is scaled. -/
def scaleLimit : Int := 70000

/-- A power that is not beyond the limit. -/
def limitPower (n : Int) : Int := max (-scaleLimit) (min scaleLimit n)

/-- A number times `2 ^ n`. -/
def scaleBy (mode : Rounding) (x : Extended) (n : Int) : Rounded :=
  if x.isFiniteNonzero then
    roundTo .extended mode x.sign x.significand.toNat (x.scale + limitPower n)
  else .exact x

/-- The integral number that a number rounds to, and whether that differs. -/
def roundToIntegral (mode : Rounding) (x : Extended) : Extended × Bool :=
  if x.isFiniteNonzero && x.scale < 0 then
    let (kept, inexact) := dropBits mode x.sign x.significand.toNat (-x.scale).toNat
    (ofExact x.sign kept 0, inexact)
  else (x, false)

/-- The integer that a number rounds to, and whether that differs.  There is none for
infinities, NaNs and numbers that round to `2 ^ 64` or more in magnitude. -/
def toInt? (mode : Rounding) (x : Extended) : Option Int × Bool :=
  if x.isZero then (some 0, false)
  else if x.isFiniteNonzero then
    let (rounded, inexact) := x.roundToIntegral mode
    if rounded.isZero then (some 0, inexact)
    else if 63 < rounded.topExponent then (none, inexact)
    else
      let magnitude : Int := shift rounded.significand.toNat rounded.scale
      (some (if rounded.sign then -magnitude else magnitude), inexact)
  else (none, false)

end Ia32.Extended
