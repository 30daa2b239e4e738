import Ia32.Float.Extended

/-!
# Rounding

An operation computes an exact value `significand * 2 ^ scale` and rounds it
once, to the precision and exponent range of a format.  `roundTo` does that and
reports what happened as bits of the status word.  A value that has more bits
than the machine computes comes with a significand that is cut off far below the
precision and whose last bit is set when something was cut off (`orSticky`): this
rounds like the exact value.
-/

namespace Ia32

/-! ## Exceptions -/

namespace Exception

/-- An operation without a result. -/
def invalid : Word := 0x0001
/-- A denormal operand. -/
def denormal : Word := 0x0002
/-- A division of a finite number by zero. -/
def zeroDivide : Word := 0x0004
/-- A result beyond the range of the format. -/
def overflow : Word := 0x0008
/-- A result that lost digits because it is too small. -/
def underflow : Word := 0x0010
/-- A result that was rounded. -/
def precision : Word := 0x0020

end Exception

/-- A result and the exceptions that it raises. -/
structure Rounded where
  /-- The result. -/
  value : Extended
  /-- The exceptions, as bits of the status word. -/
  exceptions : Word
deriving DecidableEq, Repr

/-- A result that raises nothing. -/
def Rounded.exact (value : Extended) : Rounded := ⟨value, 0⟩

/-- The result of an invalid operation. -/
def Rounded.invalid : Rounded := ⟨.indefinite, Exception.invalid⟩

/-! ## Directions and formats -/

/-- The direction of rounding. -/
inductive Rounding where
  /-- To the nearest value, and to the even one of two. -/
  | nearest
  /-- Toward negative infinity. -/
  | down
  /-- Toward positive infinity. -/
  | up
  /-- Toward zero. -/
  | zero
deriving DecidableEq, Repr

namespace Rounding

/-- The direction in bits 10 and 11 of a control word. -/
def ofControl (control : Word) : Rounding :=
  match (control.extractLsb' 10 2).toNat with
  | 0 => .nearest
  | 1 => .down
  | 2 => .up
  | _ => .zero

/-- Whether a magnitude moves away from zero.  `odd` tells about the kept part, `half` and
`rest` about the part cut off: its top bit, and whether any other bit is set. -/
def awayFromZero (mode : Rounding) (sign odd half rest : Bool) : Bool :=
  match mode with
  | .nearest => half && (rest || odd)
  | .zero => false
  | .up => !sign && (half || rest)
  | .down => sign && (half || rest)

/-- Whether an overflow gives infinity and not the largest number. -/
def overflowsToInfinity (mode : Rounding) (sign : Bool) : Bool :=
  match mode with
  | .nearest => true
  | .zero => false
  | .up => !sign
  | .down => sign

end Rounding

/-- The precision and the exponent range of a destination. -/
structure Format where
  /-- The number of significant bits. -/
  precision : Nat
  /-- The exponent of the least normal number. -/
  minExponent : Int
  /-- The exponent of the largest number. -/
  maxExponent : Int
deriving DecidableEq, Repr

namespace Format

/-- The format of the registers. -/
def extended : Format := ⟨64, -16382, 16383⟩

/-- Sixty-four bits. -/
def double : Format := ⟨53, -1022, 1023⟩

/-- Thirty-two bits. -/
def single : Format := ⟨24, -126, 127⟩

/-- The largest number of a format. -/
def largest (format : Format) (sign : Bool) : Extended :=
  .ofExact sign (Nat.pow 2 format.precision - 1) (format.maxExponent - format.precision + 1)

end Format

/-! ## Rounding an exact value -/

/-- Drops the low `count` bits of a magnitude.  Also says whether one of them was set. -/
def dropBits (mode : Rounding) (sign : Bool) (magnitude count : Nat) : Nat × Bool :=
  if count = 0 then (magnitude, false) else
  let kept := magnitude >>> count
  let half := magnitude.testBit (count - 1)
  let rest := magnitude % Nat.pow 2 (count - 1) != 0
  let away := mode.awayFromZero sign (kept % 2 == 1) half rest
  (if away then kept + 1 else kept, half || rest)

/-- How many places below the least normal number are counted at most. -/
def depthLimit : Int := 200

/-- What a format keeps of an exact value. -/
structure Kept where
  /-- The significand. -/
  significand : Nat
  /-- The exponent of its bottom bit. -/
  place : Int
  /-- Whether anything but zeros was dropped. -/
  inexact : Bool
  /-- Whether the exact value is below the normal numbers. -/
  tiny : Bool
deriving DecidableEq, Repr

namespace Format

/-- What a format keeps of `significand * 2 ^ scale`.  The significand is not zero and has at most
128 bits, and its leading one is moved to the top of these.  Below the least normal number fewer
of them are kept. -/
def keep (format : Format) (mode : Rounding) (sign : Bool) (significand : Nat) (scale : Int) :
    Kept :=
  let zeros := 127 - significand.log2
  let bottom := scale - zeros
  let exponent := bottom + 127
  let tiny := exponent < format.minExponent
  let depth := if tiny then min (format.minExponent - exponent) depthLimit else 0
  let count := 128 - format.precision + depth.toNat
  let (kept, inexact) := dropBits mode sign (significand <<< zeros) count
  ⟨kept, bottom + count, inexact, tiny⟩

/-- The number with what is kept of an exact value, and the exceptions.  An inexact result below
the least normal number underflows. -/
def pack (format : Format) (mode : Rounding) (sign : Bool) (kept : Kept) : Rounded :=
  let exceptions :=
    if !kept.inexact then 0
    else if kept.tiny then Exception.precision ||| Exception.underflow
    else Exception.precision
  if kept.significand = 0 then ⟨.zero sign, exceptions⟩
  else if format.maxExponent < kept.place + kept.significand.log2 then
    let value :=
      if mode.overflowsToInfinity sign then .infinity sign else format.largest sign
    ⟨value, exceptions ||| Exception.overflow ||| Exception.precision⟩
  else ⟨.ofExact sign kept.significand kept.place, exceptions⟩

end Format

/-- Rounds `significand * 2 ^ scale` to a format.  The significand has at most 128 bits. -/
def roundTo (format : Format) (mode : Rounding) (sign : Bool) (significand : Nat) (scale : Int) :
    Rounded :=
  if significand = 0 then .exact (.zero sign)
  else format.pack mode sign (format.keep mode sign significand scale)

/-- A significand whose last bit is set when anything is cut off below it. -/
def orSticky (significand : Nat) (cut : Bool) : Nat := significand ||| cut.toNat

end Ia32
