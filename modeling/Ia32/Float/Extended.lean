import Ia32.Word

/-!
# Extended floating-point numbers

An extended number has a sign, a 15-bit exponent and a 64-bit significand whose
top bit is explicit.  The exponent field is kept in a word, so that a register
can hold what it was given.  A finite number with exponent field `e` is
`significand * 2 ^ (e - 16383 - 63)`, where a field of zero counts as one.

Some encodings denote nothing: they have an exponent that is not zero and no top
bit in the significand.  They are treated like signaling NaNs (`isNan`,
`isSignaling`).
-/

namespace Ia32

/-- An extended floating-point number. -/
structure Extended where
  /-- Whether the number is negative. -/
  sign : Bool
  /-- The biased exponent. -/
  exponent : Word
  /-- The significand, with its top bit. -/
  significand : Qword
deriving DecidableEq, Repr

/-- The kinds of extended numbers. -/
inductive FloatClass where
  /-- Zero. -/
  | zero
  /-- A number whose significand has its top bit. -/
  | normal
  /-- A number with the least exponent. -/
  | denormal
  /-- Infinity. -/
  | infinity
  /-- A NaN that passes through operations. -/
  | quietNan
  /-- A NaN that raises an exception when it is used. -/
  | signalingNan
  /-- An encoding that denotes nothing. -/
  | unsupported
deriving DecidableEq, Repr

namespace Extended

/-! ## Constants -/

/-- What is taken from the exponent field. -/
def bias : Int := 16383

/-- The exponent of the least normal number. -/
def minExponent : Int := -16382

/-- The exponent field of infinities and NaNs. -/
def specialExponent : Word := 0x7FFF

/-- The explicit top bit of the significand. -/
def integerBit : Qword := 0x8000000000000000

/-- The bit of the significand that tells quiet NaNs from signaling ones. -/
def quietBit : Qword := 0x4000000000000000

/-- Zero with a sign. -/
def zero (sign : Bool) : Extended := ⟨sign, 0, 0⟩

/-- Infinity with a sign. -/
def infinity (sign : Bool) : Extended := ⟨sign, specialExponent, integerBit⟩

/-- One. -/
def one : Extended := ⟨false, 0x3FFF, integerBit⟩

/-- The NaN that stands for the result of an invalid operation. -/
def indefinite : Extended := ⟨true, specialExponent, 0xC000000000000000⟩

/-- The logarithm of ten to base two. -/
def log2Ten : Extended := ⟨false, 0x4000, 0xD49A784BCD1B8AFE⟩

/-- The logarithm of Euler's number to base two. -/
def log2E : Extended := ⟨false, 0x3FFF, 0xB8AA3B295C17F0BC⟩

/-- The ratio of a circle's circumference to its diameter. -/
def pi : Extended := ⟨false, 0x4000, 0xC90FDAA22168C235⟩

/-- The logarithm of two to base ten. -/
def log10Two : Extended := ⟨false, 0x3FFD, 0x9A209A84FBCFF799⟩

/-- The natural logarithm of two. -/
def lnTwo : Extended := ⟨false, 0x3FFE, 0xB17217F7D1CF79AC⟩

/-! ## Classes -/

/-- The class of a number. -/
def classify (x : Extended) : FloatClass :=
  let hasIntegerBit := x.significand &&& integerBit != 0
  if x.exponent = specialExponent then
    if !hasIntegerBit then .unsupported
    else if x.significand <<< 1 = 0 then .infinity
    else if x.significand &&& quietBit != 0 then .quietNan
    else .signalingNan
  else if x.exponent = 0 then
    if x.significand = 0 then .zero else .denormal
  else if hasIntegerBit then .normal
  else .unsupported

/-- Whether the number is zero. -/
def isZero (x : Extended) : Bool := x.exponent == 0 && x.significand == 0

/-- Whether the number is infinite. -/
def isInfinite (x : Extended) : Bool := x.classify == .infinity

/-- Whether the number has the least exponent. -/
def isDenormal (x : Extended) : Bool := x.classify == .denormal

/-- Whether the number is a NaN or an encoding that is treated like one. -/
def isNan (x : Extended) : Bool :=
  match x.classify with
  | .quietNan | .signalingNan | .unsupported => true
  | _ => false

/-- Whether the number raises an exception just by being used. -/
def isSignaling (x : Extended) : Bool :=
  match x.classify with
  | .signalingNan | .unsupported => true
  | _ => false

/-- Whether the number is neither zero nor normal. -/
def isSpecial (x : Extended) : Bool :=
  match x.classify with
  | .zero | .normal => false
  | _ => true

/-- Whether the number is finite and not zero. -/
def isFiniteNonzero (x : Extended) : Bool :=
  match x.classify with
  | .normal | .denormal => true
  | _ => false

/-! ## Sign and quietness -/

/-- The number with the other sign. -/
def neg (x : Extended) : Extended := { x with sign := !x.sign }

/-- The number without its sign. -/
def abs (x : Extended) : Extended := { x with sign := false }

/-- The quiet NaN for a NaN. -/
def quiet (x : Extended) : Extended :=
  if x.classify = .unsupported then indefinite
  else { x with significand := x.significand ||| quietBit }

/-! ## Exact values -/

/-- The exponent of the significand's top bit. -/
def topExponent (x : Extended) : Int :=
  if x.exponent = 0 then minExponent else x.exponent.toNat - bias

/-- The exponent of the significand's bottom bit: a finite number is
`significand * 2 ^ scale`. -/
def scale (x : Extended) : Int := x.topExponent - 63

/-- The exponent of a finite number's leading one. -/
def leadingExponent (x : Extended) : Int := x.scale + x.significand.toNat.log2

/-- The significand of a finite number, shifted so that its top bit is set. -/
def normalizedSignificand (x : Extended) : Nat :=
  x.significand.toNat <<< (63 - x.significand.toNat.log2)

/-- A natural number times a power of two, rounded down. -/
def shift (n : Nat) (k : Int) : Nat :=
  if 0 ≤ k then n <<< k.toNat else n >>> (-k).toNat

/-- The bits of 128 moved up, or down when `k` is negative.  The machine counts the places modulo
128.  One that checks its counts would stop instead. -/
def moveBits (n : Nat) (k : Int) : Nat :=
  if 0 ≤ k then n <<< (k.toNat % 128) else n >>> ((-k).toNat % 128)

/-- How far the significand of a number below the normal ones is moved to stand at the scale of
the least exponent. -/
def denormalMove (scale : Int) : Int := scale - (minExponent - 63)

/-- The number `significand * 2 ^ scale`, which must have an encoding. -/
def ofExact (sign : Bool) (significand : Nat) (scale : Int) : Extended :=
  if significand = 0 then zero sign else
  let top := significand.log2
  if minExponent ≤ scale + top then
    ⟨sign, BitVec.ofInt 16 (scale + top + bias), BitVec.ofNat 64 (shift significand (63 - top))⟩
  else
    ⟨sign, 0, BitVec.ofNat 64 (moveBits significand (denormalMove scale))⟩

/-- An integer. -/
def ofInt (n : Int) : Extended := ofExact (n < 0) n.natAbs 0

/-! ## Bytes -/

/-- The sign and the exponent field as one word. -/
def signExponent (x : Extended) : Word := x.exponent ||| (if x.sign then 0x8000 else 0)

/-- The ten bytes of a number, significand first. -/
def toBytes (x : Extended) : List Byte :=
  bytesOf 8 x.significand.toNat ++ bytesOf 2 x.signExponent.toNat

/-- The number in a sequence of ten bytes. -/
def ofBytes (bytes : List Byte) : Extended :=
  let signExponent := BitVec.ofNat 16 (littleEndian (bytes.drop 8))
  { sign := signExponent.msb
    exponent := signExponent &&& specialExponent
    significand := BitVec.ofNat 64 (littleEndian (bytes.take 8)) }

end Extended

end Ia32
