import Ia32.Segment.Descriptor

/-!
# Segment registers

A segment register caches what its selector stood for when it was loaded: the
base, the valid offsets, the rights and the privilege.  The valid offsets run
from `firstByte` to `lastByte`, for segments that grow downward too.
-/

namespace Ia32

/-- A segment register. -/
inductive Seg where
  /-- Extra data. -/
  | es
  /-- Code. -/
  | cs
  /-- Stack. -/
  | ss
  /-- Data. -/
  | ds
  /-- More data. -/
  | fs
  /-- Still more data. -/
  | gs
deriving DecidableEq, Repr

/-- All segment registers, in the order of their numbers. -/
def Seg.all : List Seg := [.es, .cs, .ss, .ds, .fs, .gs]

/-- The name of a segment register. -/
def Seg.name : Seg → String
  | .es => "ES"
  | .cs => "CS"
  | .ss => "SS"
  | .ds => "DS"
  | .fs => "FS"
  | .gs => "GS"

/-- What a segment register holds. -/
structure SegmentCache where
  /-- The selector it was loaded with. -/
  selector : Word
  /-- The linear address of offset zero. -/
  base : Dword
  /-- The least valid offset. -/
  firstByte : Dword
  /-- The greatest valid offset. -/
  lastByte : Dword
  /-- Whether operands, or the stack pointer, have 32 bits by default. -/
  is32 : Bool
  /-- Whether the segment may be read. -/
  readable : Bool
  /-- Whether the segment may be written. -/
  writable : Bool
  /-- Whether it is a code segment. -/
  executable : Bool
  /-- Whether it is a data segment or a code segment that is not conforming. -/
  dataOrNonconforming : Bool
  /-- Whether the selector was null. -/
  isNull : Bool
  /-- The privilege level of the descriptor. -/
  dpl : Byte
  /-- The privilege level asked for by the selector.  Of the code segment it is the level
  at which the program runs. -/
  pl : Byte
  /-- Whether it is a 32-bit task state segment. -/
  tssIs32 : Bool
deriving DecidableEq, Repr

/-- The privilege level that a selector asks for. -/
def requestedLevel (selector : Word) : Byte := selector.setWidth 8 &&& 3

/-- Whether a selector is null: it names the first entry of the global table. -/
def isNullSelector (selector : Word) : Bool := selector &&& 0xFFFC == 0

namespace SegmentCache

/-- A segment loaded in real or virtual-8086 mode. -/
def realMode (selector : Word) (vm86 : Bool) : SegmentCache where
  selector := selector
  base := selector.setWidth 32 <<< 4
  firstByte := 0
  lastByte := 0xFFFF
  is32 := false
  readable := true
  writable := true
  executable := true
  dataOrNonconforming := false
  isNull := false
  dpl := if vm86 then 3 else 0
  pl := if vm86 then 3 else 0
  tssIs32 := false

/-- The segment that a descriptor describes.  One that grows downward is valid above its
limit. -/
def ofDescriptor (selector : Word) (d : Descriptor) : SegmentCache where
  selector := selector
  base := d.base
  firstByte := if d.isExpandDown then d.limit + 1 else 0
  lastByte :=
    if d.isExpandDown then (if d.isDefault32 then 0xFFFFFFFF else 0xFFFF) else d.limit
  is32 := d.isDefault32
  readable := d.isReadable
  writable := d.isWritableData
  executable := d.isCode
  dataOrNonconforming := d.isDataOrNonconforming
  isNull := false
  dpl := d.dpl
  pl := requestedLevel selector
  tssIs32 := d.isTss32

/-- A segment register loaded with a null selector. -/
def null (selector : Word) : SegmentCache where
  selector := selector
  base := 0
  firstByte := 1
  lastByte := 0
  is32 := false
  readable := false
  writable := false
  executable := false
  dataOrNonconforming := true
  isNull := true
  dpl := 0
  pl := requestedLevel selector
  tssIs32 := false

/-- Whether `len` bytes from an offset on lie inside the segment. -/
def contains (s : SegmentCache) (offset : Dword) (len : Nat) : Bool :=
  s.firstByte.toNat ≤ offset.toNat && offset.toNat + len - 1 ≤ s.lastByte.toNat

/-- The register after a return to level `level`: a segment of a more privileged level may
no longer be used, unless it is conforming code. -/
def afterReturnTo (s : SegmentCache) (level : Byte) : SegmentCache :=
  if s.dpl < level && s.dataOrNonconforming then
    { s with isNull := true, selector := s.selector &&& 3 }
  else s

end SegmentCache

/-- The six segment registers. -/
structure Segments where
  /-- Extra data. -/
  es : SegmentCache
  /-- Code. -/
  cs : SegmentCache
  /-- Stack. -/
  ss : SegmentCache
  /-- Data. -/
  ds : SegmentCache
  /-- More data. -/
  fs : SegmentCache
  /-- Still more data. -/
  gs : SegmentCache
deriving DecidableEq, Repr

namespace Segments

/-- The contents of a segment register. -/
def get (s : Segments) : Seg → SegmentCache
  | .es => s.es
  | .cs => s.cs
  | .ss => s.ss
  | .ds => s.ds
  | .fs => s.fs
  | .gs => s.gs

/-- Loads a segment register. -/
def set (s : Segments) (seg : Seg) (cache : SegmentCache) : Segments :=
  match seg with
  | .es => { s with es := cache }
  | .cs => { s with cs := cache }
  | .ss => { s with ss := cache }
  | .ds => { s with ds := cache }
  | .fs => { s with fs := cache }
  | .gs => { s with gs := cache }

theorem get_set_self (s : Segments) (seg : Seg) (c : SegmentCache) : (s.set seg c).get seg = c := by
  cases seg <;> rfl

theorem get_set_of_ne (s : Segments) {seg other : Seg} (c : SegmentCache) (h : other ≠ seg) :
    (s.set seg c).get other = s.get other := by
  cases seg <;> cases other <;> simp_all [get, set]

/-- The registers at power-on: all are real-mode segments at zero but the code segment, which
covers the last 64 KiB of the first MiB. -/
def initial : Segments :=
  let zero := SegmentCache.realMode 0 false
  { es := zero, cs := .realMode 0xF000 false, ss := zero, ds := zero, fs := zero, gs := zero }

end Segments

end Ia32
