import Ia32.Width

/-!
# The flags register

The flags are bits of a double word.  `Flags.assign` sets or clears the bits of
a mask.  The functions `afterAdd`, `afterSub`, `afterInc`, `afterDec` and
`afterLogic` give the register after an arithmetic instruction, from the
operands and the result.  Each of them works at every width, and only the top
bit and the mask of the width enter the formulas.
-/

namespace Ia32.Flags

/-! ## The bits -/

/-- Carry. -/
def carry : Dword := 0x00000001
/-- A bit that is always one. -/
def reserved : Dword := 0x00000002
/-- Even parity of the low byte of a result. -/
def parity : Dword := 0x00000004
/-- Carry out of the low four bits. -/
def auxiliary : Dword := 0x00000010
/-- The result is zero. -/
def zero : Dword := 0x00000040
/-- The top bit of the result. -/
def sign : Dword := 0x00000080
/-- String instructions step downward. -/
def direction : Dword := 0x00000400
/-- Signed overflow. -/
def overflow : Dword := 0x00000800
/-- Virtual-8086 mode. -/
def virtual8086 : Dword := 0x00020000

/-- Whether some bit of `mask` is set. -/
def test (flags mask : Dword) : Bool := flags &&& mask != 0

/-- Sets the bits of `mask`, or clears them. -/
def assign (flags mask : Dword) (on : Bool) : Dword :=
  if on then flags ||| mask else flags &&& ~~~mask

/-- The privilege level up to which port access needs no permission. -/
def ioPrivilege (flags : Dword) : Nat := ((flags >>> 12) &&& 3).toNat

/-! ## Flags after an arithmetic instruction -/

/-- Sign, zero and parity of a result. -/
def afterResult (w : Width) (flags result : Dword) : Dword :=
  let r := w.truncate result
  let flags := assign flags sign (w.isNegative r)
  let flags := assign flags zero (r == 0)
  assign flags parity (Byte.evenParity (r.setWidth 8))

/-- After `result = a - b`, with or without a borrow coming in.  Carry and
overflow are read off the top bits alone, so a borrow needs no case of its own. -/
def afterSub (w : Width) (flags a b result : Dword) : Dword :=
  let flags := assign flags overflow (w.isNegative ((a ^^^ b) &&& (a ^^^ result)))
  let flags := assign flags auxiliary ((a ^^^ ~~~b ^^^ result) &&& 0x10 == 0)
  let flags := assign flags carry
    (!w.isNegative ((a &&& ~~~b) ||| ((a ||| ~~~b) &&& ~~~result)))
  afterResult w flags result

/-- After `result = a - 1`.  Carry stays. -/
def afterDec (w : Width) (flags a result : Dword) : Dword :=
  (afterSub w flags a 1 result &&& ~~~carry) ||| (flags &&& carry)

/-- After `result = a + b + carryIn`. -/
def afterAdd (w : Width) (flags a b carryIn result : Dword) : Dword :=
  let flags := assign flags overflow (w.isNegative ((a ^^^ result) &&& (b ^^^ result)))
  let flags := assign flags auxiliary ((a ^^^ b ^^^ result) &&& 0x10 != 0)
  let flags := assign flags carry (w.mask.toNat < a.toNat + b.toNat + carryIn.toNat)
  afterResult w flags result

/-- After `result = a + 1`.  Carry stays. -/
def afterInc (w : Width) (flags a result : Dword) : Dword :=
  (afterAdd w flags a 1 0 result &&& ~~~carry) ||| (flags &&& carry)

/-- After a bitwise operation: no overflow and no carry. -/
def afterLogic (w : Width) (flags result : Dword) : Dword :=
  afterResult w (flags &&& ~~~(overflow ||| carry)) result

/-! ## Conditions -/

/-- The condition numbered `code` in the opcodes of conditional instructions.
The low bit of the number negates the condition of the other three. -/
def condition (flags : Dword) (code : BitVec 4) : Bool :=
  let less := test flags sign != test flags overflow
  let holds :=
    match (code >>> 1).toNat with
    | 0 => test flags overflow
    | 1 => test flags carry
    | 2 => test flags zero
    | 3 => test flags carry || test flags zero
    | 4 => test flags sign
    | 5 => test flags parity
    | 6 => less
    | _ => test flags zero || less
  holds ^^ code.getLsbD 0

end Ia32.Flags
