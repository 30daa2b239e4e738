import Ia32.Flags
import Ia32.Fpu.State
import Ia32.Segment.Cache

/-!
# The processor

The state that a program sees: eight general registers, the instruction pointer,
the flags, the control register, the segment registers, the descriptor table
registers and the floating-point unit.  A byte register is a part of a general
register: numbers zero to three are the low bytes of the first four, numbers
four to seven their second bytes.
-/

namespace Ia32

/-- There are general registers. -/
instance Reg.neZero : @NeZero Nat Zero.ofOfNat0 8 := ⟨by decide⟩

/-- The number of a general register. -/
abbrev Reg := Fin 8

namespace Reg

/-- The accumulator. -/
def eax : Reg := 0
/-- The counter. -/
def ecx : Reg := 1
/-- The data register. -/
def edx : Reg := 2
/-- The base register. -/
def ebx : Reg := 3
/-- The stack pointer. -/
def esp : Reg := 4
/-- The frame pointer. -/
def ebp : Reg := 5
/-- The source index. -/
def esi : Reg := 6
/-- The destination index. -/
def edi : Reg := 7

/-- The second byte of the accumulator, as a byte register. -/
def ah : Reg := 4
/-- The low byte of the counter, as a byte register. -/
def cl : Reg := 1

/-- The register with a three-bit number. -/
def ofBits (n : BitVec 3) : Reg := n.toFin

end Reg

/-! ## The control register -/

namespace Control

/-- Protected mode. -/
def protection : Dword := 0x00000001
/-- Waiting for the floating-point unit respects a task switch. -/
def monitor : Dword := 0x00000002
/-- There is no floating-point unit. -/
def emulation : Dword := 0x00000004
/-- A task switch has happened. -/
def taskSwitched : Dword := 0x00000008
/-- A bit that is set at power-on. -/
def extensionType : Dword := 0x00000010

end Control

/-- The state that a program sees. -/
structure Processor where
  /-- The general registers. -/
  regs : Vector Dword 8
  /-- The offset of the next instruction. -/
  eip : Dword
  /-- The flags. -/
  eflags : Dword
  /-- The control register. -/
  cr0 : Dword
  /-- The segment registers. -/
  segs : Segments
  /-- The global descriptor table. -/
  gdtr : DescriptorTable
  /-- The interrupt descriptor table. -/
  idtr : DescriptorTable
  /-- The local descriptor table. -/
  ldtr : SegmentCache
  /-- The task state segment. -/
  tr : SegmentCache
  /-- The floating-point unit. -/
  fpu : Fpu
deriving DecidableEq, Repr

namespace Processor

/-- The processor at power-on, in real mode. -/
def initial : Processor where
  regs := Vector.replicate 8 0
  eip := 0xFFF0
  eflags := Flags.reserved
  cr0 := Control.extensionType
  segs := .initial
  gdtr := ⟨0, 0⟩
  idtr := ⟨0, 0x3FF⟩
  ldtr := .null 0
  tr := .null 0
  fpu := .initial

/-! ## Registers -/

/-- A register of a width. -/
def reg (p : Processor) (w : Width) (r : Reg) : Dword :=
  match w with
  | .byte => if r < 4 then p.regs.get r &&& 0xFF else (p.regs.get (r - 4) >>> 8) &&& 0xFF
  | .word => p.regs.get r &&& 0xFFFF
  | .dword => p.regs.get r

/-- A general register after a write to the part of it that `w` and `r` name. -/
def merge (w : Width) (r : Reg) (old value : Dword) : Dword :=
  match w with
  | .byte =>
    if r < 4 then (old &&& 0xFFFFFF00) ||| (value &&& 0xFF)
    else (old &&& 0xFFFF00FF) ||| ((value &&& 0xFF) <<< 8)
  | .word => (old &&& 0xFFFF0000) ||| (value &&& 0xFFFF)
  | .dword => value

/-- The general register that holds the register `r` of width `w`. -/
def holder (w : Width) (r : Reg) : Reg :=
  match w with
  | .byte => if r < 4 then r else r - 4
  | _ => r

/-- Writes a register of a width.  The rest of the general register stays. -/
def setReg (p : Processor) (w : Width) (r : Reg) (value : Dword) : Processor :=
  let h := holder w r
  { p with regs := p.regs.set h (merge w r (p.regs.get h) value) }

/-! ## Flags and modes -/

/-- Whether some flag of a mask is set. -/
def flag (p : Processor) (mask : Dword) : Bool := Flags.test p.eflags mask

/-- Sets or clears flags. -/
def setFlag (p : Processor) (mask : Dword) (on : Bool) : Processor :=
  { p with eflags := Flags.assign p.eflags mask on }

/-- Whether protection is on. -/
def isProtected (p : Processor) : Bool := p.cr0 &&& Control.protection != 0

/-- Whether the virtual-8086 flag is set. -/
def isVirtual8086 (p : Processor) : Bool := p.flag Flags.virtual8086

/-- Whether segments are checked and loaded from descriptors. -/
def usesDescriptors (p : Processor) : Bool := p.isProtected && !p.isVirtual8086

/-- The privilege level at which the program runs. -/
def cpl (p : Processor) : Byte :=
  if !p.isProtected then 0 else if p.isVirtual8086 then 3 else p.segs.cs.pl

/-- The privilege level up to which port access needs no permission. -/
def iopl (p : Processor) : Nat := Flags.ioPrivilege p.eflags

/-! ## Segments -/

/-- Loads a segment register. -/
def setSeg (p : Processor) (seg : Seg) (cache : SegmentCache) : Processor :=
  { p with segs := p.segs.set seg cache }

/-- Loads a segment register as real mode does. -/
def loadReal (p : Processor) (seg : Seg) (selector : Word) : Processor :=
  p.setSeg seg (.realMode selector p.isVirtual8086)

/-! ## The stack pointer -/

/-- Whether the stack pointer has 32 bits. -/
def stack32 (p : Processor) : Bool := p.segs.ss.is32

/-- An offset cut to the width of the stack pointer. -/
def wrapStack (p : Processor) (offset : Dword) : Dword :=
  if p.stack32 then offset else offset &&& 0xFFFF

/-- The stack pointer. -/
def sp (p : Processor) : Dword := p.wrapStack (p.reg .dword Reg.esp)

/-- Sets the stack pointer. -/
def setSp (p : Processor) (value : Dword) : Processor :=
  p.setReg (if p.stack32 then .dword else .word) Reg.esp value

/-- The stack pointer moved up by a number of bytes, or down by a negative number. -/
def spPlus (p : Processor) (delta : Dword) : Dword := p.wrapStack (p.sp + delta)

end Processor

end Ia32
