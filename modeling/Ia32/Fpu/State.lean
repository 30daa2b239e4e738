import Ia32.Float.Arith

/-!
# The floating-point unit

Eight registers form a ring.  Stack register `i` is the one `i` places above the
top of the stack, modulo eight.  A tag for each register says whether it is
empty, and if not what kind of number it holds.  The status word keeps every
exception that was raised, until it is cleared; its summary bit is set when one
of them is not masked by the control word.  The top of the stack is kept apart
from the other bits of the status word.
-/

namespace Ia32

/-! ## Bits of the status word -/

namespace Status

/-- All exceptions. -/
def exceptions : Word := 0x003F
/-- The stack overflowed or underflowed. -/
def stackFault : Word := 0x0040
/-- Some exception is not masked. -/
def summary : Word := 0x0080
/-- Condition zero. -/
def c0 : Word := 0x0100
/-- Condition one. -/
def c1 : Word := 0x0200
/-- Condition two. -/
def c2 : Word := 0x0400
/-- The top of the stack. -/
def top : Word := 0x3800
/-- Condition three. -/
def c3 : Word := 0x4000
/-- The unit is busy. -/
def busy : Word := 0x8000
/-- The conditions that a comparison sets. -/
def comparison : Word := c0 ||| c2 ||| c3

end Status

/-! ## Tags -/

/-- What a register holds. -/
inductive Tag where
  /-- A normal number. -/
  | valid
  /-- Zero. -/
  | zero
  /-- Infinity, a NaN or a number that is not normal. -/
  | special
  /-- Nothing. -/
  | empty
deriving DecidableEq, Repr

namespace Tag

/-- The two bits of a tag. -/
def toBits : Tag → BitVec 2
  | .valid => 0
  | .zero => 1
  | .special => 2
  | .empty => 3

/-- The tag with given bits. -/
def ofBits (bits : BitVec 2) : Tag :=
  match bits.toNat with
  | 0 => .valid
  | 1 => .zero
  | 2 => .special
  | _ => .empty

theorem ofBits_toBits (t : Tag) : ofBits t.toBits = t := by cases t <;> rfl

/-- The tag of a number. -/
def ofNumber (x : Extended) : Tag :=
  if x.isZero then .zero else if x.isSpecial then .special else .valid

end Tag

/-! ## The state -/

/-- The state of the floating-point unit. -/
structure Fpu where
  /-- The registers. -/
  regs : Vector Extended 8
  /-- Masks and rounding direction. -/
  control : Word
  /-- Exceptions and conditions, without the top of the stack. -/
  status : Word
  /-- The register at the top of the stack. -/
  top : Byte
  /-- The tags, two bits for each register. -/
  tags : Word
  /-- The offset of the last instruction. -/
  ipOffset : Dword
  /-- The code selector of the last instruction. -/
  ipSelector : Word
  /-- The low eleven bits of the last instruction's first two bytes. -/
  opcode : Word
  /-- The offset of the last operand. -/
  dpOffset : Dword
  /-- The selector of the last operand. -/
  dpSelector : Word
deriving DecidableEq, Repr

namespace Fpu

/-- The control word after a reset: all exceptions are masked. -/
def defaultControl : Word := 0x037F

/-- The unit at power-on. -/
def initial : Fpu where
  regs := Vector.replicate 8 (Extended.zero false)
  control := defaultControl
  status := 0
  top := 0
  tags := 0xFFFF
  ipOffset := 0
  ipSelector := 0
  opcode := 0
  dpOffset := 0
  dpSelector := 0

/-- The initial state with the contents of the registers kept. -/
def reinitialize (f : Fpu) : Fpu := { initial with regs := f.regs }

/-! ## The register stack -/

/-- The number of stack register `i` among the eight registers. -/
def physical (f : Fpu) (i : Nat) : Fin 8 := Fin.ofNat 8 (f.top.toNat + i)

/-- The contents of a stack register. -/
def st (f : Fpu) (i : Nat) : Extended := f.regs[f.physical i]

/-- Writes a stack register. -/
def setSt (f : Fpu) (i : Nat) (x : Extended) : Fpu :=
  { f with regs := f.regs.set (f.physical i) x }

/-- The tag of a register. -/
def tagAt (f : Fpu) (r : Fin 8) : Tag := .ofBits (f.tags.extractLsb' (2 * r) 2)

/-- Writes the tag of a register. -/
def setTagAt (f : Fpu) (r : Fin 8) (t : Tag) : Fpu :=
  let cleared := f.tags &&& ~~~((3 : Word) <<< (2 * r.val))
  { f with tags := cleared ||| (t.toBits.setWidth 16 <<< (2 * r.val)) }

/-- The tag of a stack register. -/
def tag (f : Fpu) (i : Nat) : Tag := f.tagAt (f.physical i)

/-- Writes the tag of a stack register. -/
def setTag (f : Fpu) (i : Nat) (t : Tag) : Fpu := f.setTagAt (f.physical i) t

/-- Gives a stack register the tag of the number it holds. -/
def retag (f : Fpu) (i : Nat) : Fpu := f.setTag i (.ofNumber (f.st i))

/-- Writes a number to a stack register and tags it. -/
def store (f : Fpu) (i : Nat) (x : Extended) : Fpu := (f.setSt i x).retag i

/-- Moves the top of the stack down by one register. -/
def push (f : Fpu) : Fpu := { f with top := (f.top - 1) &&& 7 }

/-- Empties the top register and moves the top of the stack up by one. -/
def pop (f : Fpu) : Fpu :=
  let f := f.setTag 0 .empty
  { f with top := (f.top + 1) &&& 7 }

/-- Pushes a number. -/
def pushNumber (f : Fpu) (x : Extended) : Fpu := f.push.store 0 x

/-- The contents of a stack register, or the indefinite NaN when it is empty. -/
def value (f : Fpu) (i : Nat) : Extended :=
  if f.tag i = .empty then .indefinite else f.st i

/-! ## Control and status -/

/-- The direction of rounding. -/
def rounding (f : Fpu) : Rounding := .ofControl f.control

/-- Sets or clears bits of the status word. -/
def setCondition (f : Fpu) (bits : Word) (on : Bool) : Fpu :=
  { f with status := if on then f.status ||| bits else f.status &&& ~~~bits }

/-- Clears the four conditions. -/
def clearConditions (f : Fpu) : Fpu :=
  f.setCondition (Status.c0 ||| Status.c1 ||| Status.c2 ||| Status.c3) false

/-- The status word with the top of the stack. -/
def statusWord (f : Fpu) : Word := (f.status &&& ~~~Status.top) ||| (f.top.setWidth 16 <<< 11)

/-- Loads a status word and the top of the stack from it. -/
def setStatusWord (f : Fpu) (word : Word) : Fpu :=
  { f with top := (word.extractLsb' 11 3).setWidth 8, status := word &&& ~~~Status.top }

/-- Those of some exceptions that the control word does not mask. -/
def unmasked (f : Fpu) (bits : Word) : Word := bits &&& ~~~f.control &&& Status.exceptions

/-- Sets or clears the summary bits from the exceptions raised so far. -/
def summarize (f : Fpu) : Fpu :=
  f.setCondition (Status.summary ||| Status.busy) (f.unmasked f.status != 0)

/-- Whether an exception waits for delivery. -/
def isPending (f : Fpu) : Bool := f.status &&& Status.summary != 0

/-- Records exceptions.  Also says whether one of them is not masked: then the summary bits
are set and the instruction must stop. -/
def raise (f : Fpu) (bits : Word) : Bool × Fpu :=
  let stops := f.unmasked bits != 0
  let f := f.setCondition bits true
  (stops, if stops then f.setCondition (Status.summary ||| Status.busy) true else f)

/-- Whether some of the exceptions are masked. -/
def isMasked (f : Fpu) (bits : Word) : Bool := f.control &&& bits != 0

end Fpu

end Ia32
