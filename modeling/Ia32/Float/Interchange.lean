import Ia32.Float.Arith

/-!
# Interchange formats

Numbers in memory have 32 or 64 bits: a sign, a biased exponent and a fraction
without its top bit.  Reading one is exact.  Writing one rounds, and a NaN that
is written loses the low bits of its significand and becomes quiet.
-/

namespace Ia32

namespace Format

/-- The number of bits of the fraction. -/
def fractionBits (format : Format) : Nat := format.precision - 1

/-- The number of bits of the exponent field: its values run to twice the largest exponent
and one more for infinities and NaNs. -/
def exponentBits (format : Format) : Nat := format.maxExponent.toNat.log2 + 2

/-- The exponent field of infinities and NaNs. -/
def specialField (format : Format) : Nat := Nat.pow 2 format.exponentBits - 1

/-- The number of bits of a number in memory. -/
def width (format : Format) : Nat := format.fractionBits + format.exponentBits + 1

/-- A sign, an exponent field and a fraction as one number. -/
def assemble (format : Format) (sign : Bool) (field fraction : Nat) : Nat :=
  sign.toNat <<< (format.fractionBits + format.exponentBits)
    ||| field <<< format.fractionBits ||| fraction

/-- The fraction's top bit, which tells quiet NaNs from signaling ones. -/
def quietFraction (format : Format) : Nat := Nat.pow 2 (format.fractionBits - 1)

end Format

/-- Bits of an interchange format and the exceptions that writing them raises. -/
structure Encoded where
  /-- The bits. -/
  bits : Nat
  /-- The exceptions, as bits of the status word. -/
  exceptions : Word
deriving DecidableEq, Repr

namespace Extended

/-! ## Writing -/

/-- The bits of a finite number that the format can hold.  The machine counts the places of a
shift modulo 64. -/
def fieldsOf (format : Format) (x : Extended) : Nat :=
  let fraction := format.fractionBits
  let exponent := x.leadingExponent
  let significand := x.normalizedSignificand
  if format.minExponent ≤ exponent then
    let field := (exponent - format.minExponent + 1).toNat
    format.assemble x.sign field (significand >>> (63 - fraction) % Nat.pow 2 fraction)
  else
    let places := 63 - fraction + (format.minExponent - exponent).toNat
    format.assemble x.sign 0 (significand >>> (places % 64) % Nat.pow 2 format.width)

/-- Rounds a number to a format and encodes it. -/
def encode (format : Format) (mode : Rounding) (x : Extended) : Encoded :=
  let special (sign : Bool) (fraction : Nat) := format.assemble sign format.specialField fraction
  let payload := shift x.significand.toNat (format.fractionBits - 63) % Nat.pow 2 format.fractionBits
  match x.classify with
  | .zero => ⟨format.assemble x.sign 0 0, 0⟩
  | .infinity => ⟨special x.sign 0, 0⟩
  | .quietNan => ⟨special x.sign (payload ||| format.quietFraction), 0⟩
  | .signalingNan => ⟨special x.sign (payload ||| format.quietFraction), Exception.invalid⟩
  | .unsupported => ⟨special true format.quietFraction, Exception.invalid⟩
  | .normal | .denormal =>
    let r := roundTo format mode x.sign x.significand.toNat x.scale
    if r.value.isZero then ⟨format.assemble x.sign 0 0, r.exceptions⟩
    else if r.value.isInfinite then ⟨special x.sign 0, r.exceptions⟩
    else ⟨fieldsOf format r.value, r.exceptions⟩

/-! ## Reading -/

/-- The exponent field of some bits. -/
def fieldOf (format : Format) (bits : Nat) : Nat :=
  bits >>> format.fractionBits % Nat.pow 2 format.exponentBits

/-- Whether some bits are a number below the normal ones, and not zero. -/
def isSubnormal (format : Format) (bits : Nat) : Bool :=
  fieldOf format bits == 0 && bits % Nat.pow 2 format.fractionBits != 0

/-- The number that some bits encode. -/
def decode (format : Format) (bits : Nat) : Extended :=
  let fraction := bits % Nat.pow 2 format.fractionBits
  let field := fieldOf format bits
  let sign := bits.testBit (format.fractionBits + format.exponentBits)
  let aligned := integerBit ||| BitVec.ofNat 64 (fraction <<< (63 - format.fractionBits))
  if field = format.specialField then
    if fraction = 0 then infinity sign else ⟨sign, specialExponent, aligned⟩
  else if field = 0 then ofExact sign fraction (format.minExponent - format.fractionBits)
  else ⟨sign, BitVec.ofInt 16 (field - 1 + format.minExponent + bias), aligned⟩

/-- A number rounded to the nearest one of 64 bits. -/
def toDouble (x : Extended) : Extended :=
  if x.isFiniteNonzero then
    (roundTo .double .nearest x.sign x.significand.toNat x.scale).value
  else x

end Extended

end Ia32
