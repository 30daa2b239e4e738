import Ia32.Word

/-!
# Operand widths

An operand is 8, 16 or 32 bits wide.  A value of any width is carried in a
double word.  `truncate` clears the bits above the width, `signExtend` copies
the top bit of the width into them.
-/

namespace Ia32

/-- The width of an operand. -/
inductive Width where
  /-- Eight bits. -/
  | byte
  /-- Sixteen bits. -/
  | word
  /-- Thirty-two bits. -/
  | dword
deriving DecidableEq, Repr

namespace Width

/-- The number of bits. -/
def bits : Width → Nat
  | .byte => 8
  | .word => 16
  | .dword => 32

/-- The number of bytes. -/
def bytes : Width → Nat
  | .byte => 1
  | .word => 2
  | .dword => 4

/-- The ones in the bits of the width. -/
def mask : Width → Dword
  | .byte => 0xFF
  | .word => 0xFFFF
  | .dword => 0xFFFFFFFF

/-- The one in the top bit of the width. -/
def topBit : Width → Dword
  | .byte => 0x80
  | .word => 0x8000
  | .dword => 0x80000000

/-- The bits of a value inside the width. -/
def truncate (w : Width) (value : Dword) : Dword := value &&& w.mask

/-- A value of the width, with its top bit copied into the bits above. -/
def signExtend (w : Width) (value : Dword) : Dword :=
  (value <<< (32 - w.bits)).sshiftRight (32 - w.bits)

/-- Whether the top bit of the width is set. -/
def isNegative (w : Width) (value : Dword) : Bool := value &&& w.topBit != 0

/-- A value of the width as a signed number. -/
def toInt (w : Width) (value : Dword) : Int := (w.signExtend value).toInt

theorem bits_eq (w : Width) : w.bits = 8 * w.bytes := by cases w <;> rfl

end Width

end Ia32
