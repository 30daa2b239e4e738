import Ia32.Flags

/-!
# Shifts and rotates

A shift or rotate takes a count that is already reduced modulo 32.  The answer
is `none` when the operand and all flags stay as they are: for a count of zero,
and for a rotate through carry by a multiple of the width and the carry bit
together.  Rotates touch carry and overflow only.  Shifts also set sign, zero
and parity.  Overflow is touched by a count of one alone.
-/

namespace Ia32

/-- A shift or rotate. -/
inductive ShiftOp where
  /-- Rotate left. -/
  | rol
  /-- Rotate right. -/
  | ror
  /-- Rotate left through carry. -/
  | rcl
  /-- Rotate right through carry. -/
  | rcr
  /-- Shift left. -/
  | shl
  /-- Shift right, filling with zeros. -/
  | shr
  /-- Shift right, filling with the top bit. -/
  | sar
deriving DecidableEq, Repr

/-- A result and the flags after it. -/
structure Outcome where
  /-- The value for the destination. -/
  result : Dword
  /-- The flags register. -/
  flags : Dword
deriving DecidableEq, Repr

namespace ShiftOp

/-- The operation with a three-bit number.  Six is a second number of the left shift. -/
def ofBits (n : BitVec 3) : ShiftOp :=
  match n.toNat with
  | 0 => .rol
  | 1 => .ror
  | 2 => .rcl
  | 3 => .rcr
  | 4 | 6 => .shl
  | 5 => .shr
  | _ => .sar

/-- Sets overflow when the count is one. -/
def assignOverflow (count : Nat) (flags : Dword) (on : Bool) : Dword :=
  if count = 1 then Flags.assign flags Flags.overflow on else flags

/-- The outcome of a shift: carry is the last bit moved out. -/
def shifted (w : Width) (count : Nat) (flags result : Dword) (carry overflow : Bool) : Outcome :=
  let flags := assignOverflow count (Flags.assign flags Flags.carry carry) overflow
  ⟨result, Flags.afterResult w flags result⟩

/-- The outcome of a rotate. -/
def rotated (count : Nat) (flags result : Dword) (carry overflow : Bool) : Outcome :=
  ⟨result, assignOverflow count (Flags.assign flags Flags.carry carry) overflow⟩

/-- The operand with the carry bit above it, as one word. -/
def withCarry (w : Width) (flags value : Dword) : Qword :=
  value.setWidth 64 ||| (BitVec.ofBool (Flags.test flags Flags.carry)).setWidth 64 <<< w.bits

/-- The outcome of a rotate through carry.  The operand stands in the low bits of `wide` with the
carry bit above it; what is above both does not count. -/
def rotatedThrough (w : Width) (count : Nat) (flags : Dword) (wide : Qword) (overflow : Bool) :
    Outcome :=
  let wide := wide &&& (1 <<< (w.bits + 1) - 1)
  rotated count flags (wide.setWidth 32 &&& w.mask) (wide.getLsbD w.bits) overflow

/-- Shifts or rotates an operand by a count less than 32. -/
def apply (w : Width) (op : ShiftOp) (flags value : Dword) (count : Nat) : Option Outcome :=
  if count = 0 then none else
  let v := w.truncate value
  let top := w.bits - 1
  match op with
  | .shl =>
    let (result, carry) :=
      if count ≤ w.bits then
        (w.truncate ((v.setWidth 64 <<< count).setWidth 32), v.getLsbD (w.bits - count))
      else (0, false)
    some (shifted w count flags result carry (v.getLsbD top ^^ v.getLsbD (top - 1)))
  | .shr =>
    let (result, carry) :=
      if count ≤ w.bits then ((v.setWidth 64 >>> count).setWidth 32, v.getLsbD (count - 1))
      else (0, false)
    some (shifted w count flags result carry (v.getLsbD top))
  | .sar =>
    let s := w.signExtend v
    let (result, carry) :=
      if w.bits ≤ count then (if s.msb then w.mask else 0, s.msb)
      else (w.truncate (s.sshiftRight count), s.getLsbD (count - 1))
    some (shifted w count flags result carry false)
  | .rol =>
    let places := count % w.bits
    let result := if places = 0 then v else w.truncate (v <<< places ||| v >>> (w.bits - places))
    some (rotated count flags result (result.getLsbD 0) (v.getLsbD top ^^ v.getLsbD (top - 1)))
  | .ror =>
    let places := count % w.bits
    let result := if places = 0 then v else w.truncate (v >>> places ||| v <<< (w.bits - places))
    some (rotated count flags result (result.getLsbD top) (v.getLsbD top ^^ v.getLsbD 0))
  | .rcl =>
    let places := count % (w.bits + 1)
    if places = 0 then none else
    let wide := withCarry w flags v
    some (rotatedThrough w count flags (wide <<< places ||| wide >>> (w.bits + 1 - places))
      (v.getLsbD top ^^ v.getLsbD (top - 1)))
  | .rcr =>
    let places := count % (w.bits + 1)
    if places = 0 then none else
    let wide := withCarry w flags v
    some (rotatedThrough w count flags (wide >>> places ||| wide <<< (w.bits + 1 - places))
      (v.getLsbD top ^^ Flags.test flags Flags.carry))

end ShiftOp

/-! ## Double shifts -/

/-- The side to which a double shift moves its operand. -/
inductive Direction where
  /-- Toward the top bit. -/
  | left
  /-- Toward the bottom bit. -/
  | right
deriving DecidableEq, Repr

/-- Shifts `value` and fills it with bits of `fill`.  Nothing changes for a count
of zero or one above the width. -/
def doubleShift (w : Width) (direction : Direction) (flags value fill : Dword) (count : Nat) :
    Option Outcome :=
  if count = 0 || w.bits < count then none else
  let v := w.truncate value
  let fill := (w.truncate fill).setWidth 64
  let (result, carry) :=
    match direction with
    | .left =>
      let wide := v.setWidth 64 <<< w.bits ||| fill
      (w.truncate ((wide <<< count >>> w.bits).setWidth 32), v.getLsbD (w.bits - count))
    | .right =>
      let wide := fill <<< w.bits ||| v.setWidth 64
      (w.truncate ((wide >>> count).setWidth 32), v.getLsbD (count - 1))
  some (ShiftOp.shifted w count flags result carry (w.isNegative (result ^^^ v)))

end Ia32
