import Ia32.Word

/-!
# Descriptors

A descriptor is eight bytes of a descriptor table, read as two double words.  It
describes a code or data segment, a task state segment or a gate.  The five
`kind` bits say which: the top one tells segments from system descriptors.
-/

namespace Ia32

/-- An entry of a descriptor table. -/
structure Descriptor where
  /-- The first four bytes. -/
  low : Dword
  /-- The last four bytes. -/
  high : Dword
deriving DecidableEq, Repr

/-- Where a descriptor table is. -/
structure DescriptorTable where
  /-- The linear address of its first byte. -/
  base : Dword
  /-- The offset of its last byte. -/
  limit : Word
deriving DecidableEq, Repr

namespace Descriptor

/-- The descriptor in a sequence of eight bytes. -/
def ofBytes (bytes : List Byte) : Descriptor where
  low := BitVec.ofNat 32 (littleEndian (bytes.take 4))
  high := BitVec.ofNat 32 (littleEndian (bytes.drop 4))

/-! ## Segments -/

/-- The linear address of the first byte of the segment. -/
def base (d : Descriptor) : Dword :=
  (d.low >>> 16) ||| ((d.high <<< 16) &&& 0x00FF0000) ||| (d.high &&& 0xFF000000)

/-- Whether the limit counts pages of 4096 bytes. -/
def isGranular (d : Descriptor) : Bool := d.high &&& 0x00800000 != 0

/-- The limit in bytes. -/
def limit (d : Descriptor) : Dword :=
  let units := (d.high &&& 0x000F0000) ||| (d.low &&& 0xFFFF)
  if d.isGranular then (units <<< 12) ||| 0xFFF else units

/-- The segment bit and the four bits of the type. -/
def kind (d : Descriptor) : BitVec 5 := d.high.extractLsb' 8 5

/-- Whether the segment is in memory. -/
def isPresent (d : Descriptor) : Bool := d.high &&& 0x8000 != 0

/-- The privilege level. -/
def dpl (d : Descriptor) : Byte := (d.high >>> 13).setWidth 8 &&& 3

/-- Whether operands, or the stack pointer, have 32 bits by default. -/
def isDefault32 (d : Descriptor) : Bool := d.high &&& 0x00400000 != 0

/-- Whether it is a code segment. -/
def isCode (d : Descriptor) : Bool := d.kind &&& 0x18 == 0x18

/-- Whether it is a code segment that runs at the privilege of its caller. -/
def isConforming (d : Descriptor) : Bool := d.isCode && d.kind &&& 0x04 != 0

/-- Whether it is a data segment or a readable code segment. -/
def isReadable (d : Descriptor) : Bool := d.kind &&& 0x18 == 0x10 || d.kind &&& 0x1A == 0x1A

/-- Whether it is a data segment that may be written. -/
def isWritableData (d : Descriptor) : Bool := d.kind &&& 0x1A == 0x12

/-- Whether it is a data segment whose valid offsets lie above its limit. -/
def isExpandDown (d : Descriptor) : Bool := d.kind &&& 0x1C == 0x14

/-- Whether it is a data segment or a code segment that is not conforming. -/
def isDataOrNonconforming (d : Descriptor) : Bool :=
  d.kind &&& 0x18 == 0x10 || d.kind &&& 0x1C == 0x18

/-! ## System descriptors -/

/-- Whether it is a call gate. -/
def isCallGate (d : Descriptor) : Bool := d.kind &&& 0x17 == 0x04

/-- Whether it is a 32-bit call gate. -/
def isCallGate32 (d : Descriptor) : Bool := d.kind == 0x0C

/-- Whether it is a task gate. -/
def isTaskGate (d : Descriptor) : Bool := d.kind == 0x05

/-- Whether it is a task state segment, available or busy. -/
def isTss (d : Descriptor) : Bool := d.kind &&& 0x15 == 0x01

/-- Whether it is a 32-bit task state segment. -/
def isTss32 (d : Descriptor) : Bool := d.kind &&& 0x1D == 0x09

/-- The selector in a gate. -/
def gateSelector (d : Descriptor) : Word := d.low.extractLsb' 16 16

/-- The 32 bits of the offset in a gate. -/
def gateOffset (d : Descriptor) : Dword := (d.high &&& 0xFFFF0000) ||| (d.low &&& 0xFFFF)

/-- The entry point a call gate leads to: a 16-bit gate holds 16 bits of it. -/
def callTarget (d : Descriptor) : Dword :=
  if d.isCallGate32 then d.gateOffset else d.gateOffset &&& 0xFFFF

/-- The number of parameters that a call gate copies. -/
def gateParameters (d : Descriptor) : Nat := (d.high &&& 0x1F).toNat

/-- The descriptor marked as accessed. -/
def accessed (d : Descriptor) : Descriptor := { d with high := d.high ||| 0x100 }

/-- Whether the descriptor is marked as accessed. -/
def isAccessed (d : Descriptor) : Bool := d.high &&& 0x100 != 0

end Descriptor

end Ia32
