import Ia32.Json.Record
import Ia32.Machine

/-!
# Snapshots

The state of a processor as a JSON value and back.  Memory is not part of it.
Every member must be there, and every number must fit its word.  Nothing else is
checked, but the flag that is always one is set.  What a running instruction
knows of its markers and of its first byte is no part of a machine between two
steps, and so no part of a snapshot.
-/

namespace Ia32

namespace Snapshot

/-- A bit vector as a number. -/
def ofBits {w : Nat} (value : BitVec w) : Json := .nat value.toNat

/-! ## Segments -/

/-- The names of the members of a segment register. -/
def segmentNames : List String :=
  ["selector", "base", "first_byte", "last_byte", "is32", "readable", "writable", "executable",
    "data_or_nonconforming", "is_null", "dpl", "pl", "tss_is32"]

/-- The members of a segment register, in the order of their names. -/
def segmentMembers (s : SegmentCache) : List Json :=
  [ofBits s.selector, ofBits s.base, ofBits s.firstByte, ofBits s.lastByte, .bool s.is32,
    .bool s.readable, .bool s.writable, .bool s.executable, .bool s.dataOrNonconforming,
    .bool s.isNull, ofBits s.dpl, ofBits s.pl, .bool s.tssIs32]

/-- A segment register as JSON. -/
def ofSegment (s : SegmentCache) : Json := .record (segmentNames.zip (segmentMembers s))

/-- The segment register in a JSON value. -/
def segment? (value : Json) : Option SegmentCache := do
  match ← value.allFields? segmentNames with
  | [selector, base, firstByte, lastByte, is32, readable, writable, executable,
      dataOrNonconforming, isNull, dpl, pl, tssIs32] =>
    some
      { selector := ← selector.bits? 16
        base := ← base.bits? 32
        firstByte := ← firstByte.bits? 32
        lastByte := ← lastByte.bits? 32
        is32 := ← is32.bool?
        readable := ← readable.bool?
        writable := ← writable.bool?
        executable := ← executable.bool?
        dataOrNonconforming := ← dataOrNonconforming.bool?
        isNull := ← isNull.bool?
        dpl := ← dpl.bits? 8
        pl := ← pl.bits? 8
        tssIs32 := ← tssIs32.bool? }
  | _ => none

/-- The segment registers as JSON. -/
def ofSegments (s : Segments) : Json := .array (Seg.all.map fun seg => ofSegment (s.get seg))

/-- The segment registers in a JSON value. -/
def segments? (value : Json) : Option Segments := do
  let s ← value.vector? 6 segment?
  some { es := s[0], cs := s[1], ss := s[2], ds := s[3], fs := s[4], gs := s[5] }

/-! ## Descriptor tables -/

/-- The names of the members of a descriptor table register. -/
def tableNames : List String := ["base", "limit"]

/-- A descriptor table register as JSON. -/
def ofTable (t : DescriptorTable) : Json :=
  .record (tableNames.zip [ofBits t.base, ofBits t.limit])

/-- The descriptor table register in a JSON value. -/
def table? (value : Json) : Option DescriptorTable := do
  match ← value.allFields? tableNames with
  | [base, limit] => some { base := ← base.bits? 32, limit := ← limit.bits? 16 }
  | _ => none

/-! ## The floating-point unit -/

/-- The names of the members of an extended number. -/
def extendedNames : List String := ["sign", "exp", "mant"]

/-- An extended number as JSON. -/
def ofExtended (x : Extended) : Json :=
  .record (extendedNames.zip [.bool x.sign, ofBits x.exponent, ofBits x.significand])

/-- The extended number in a JSON value. -/
def extended? (value : Json) : Option Extended := do
  match ← value.allFields? extendedNames with
  | [sign, exponent, significand] =>
    some
      { sign := ← sign.bool?
        exponent := ← exponent.bits? 16
        significand := ← significand.bits? 64 }
  | _ => none

/-- The names of the members of the floating-point unit. -/
def fpuNames : List String :=
  ["regs", "control", "status", "top", "tag_word", "ip_offset", "ip_selector", "opcode",
    "dp_offset", "dp_selector"]

/-- The members of the floating-point unit, in the order of their names. -/
def fpuMembers (f : Fpu) : List Json :=
  [.array (f.regs.toList.map ofExtended), ofBits f.control, ofBits f.status, ofBits f.top,
    ofBits f.tags, ofBits f.ipOffset, ofBits f.ipSelector, ofBits f.opcode, ofBits f.dpOffset,
    ofBits f.dpSelector]

/-- The floating-point unit as JSON. -/
def ofFpu (f : Fpu) : Json := .record (fpuNames.zip (fpuMembers f))

/-- The floating-point unit in a JSON value. -/
def fpu? (value : Json) : Option Fpu := do
  match ← value.allFields? fpuNames with
  | [regs, control, status, top, tags, ipOffset, ipSelector, opcode, dpOffset, dpSelector] =>
    some
      { regs := ← regs.vector? 8 extended?
        control := ← control.bits? 16
        status := ← status.bits? 16
        top := ← top.bits? 8
        tags := ← tags.bits? 16
        ipOffset := ← ipOffset.bits? 32
        ipSelector := ← ipSelector.bits? 16
        opcode := ← opcode.bits? 16
        dpOffset := ← dpOffset.bits? 32
        dpSelector := ← dpSelector.bits? 16 }
  | _ => none

/-! ## The processor -/

/-- The names of the members of a snapshot. -/
def processorNames : List String :=
  ["regs", "eip", "eflags", "cr0", "segs", "gdtr", "idtr", "ldtr", "tr", "fpu"]

/-- The members of a snapshot, in the order of their names. -/
def processorMembers (p : Processor) : List Json :=
  [.array (p.regs.toList.map ofBits), ofBits p.eip, ofBits p.eflags, ofBits p.cr0,
    ofSegments p.segs, ofTable p.gdtr, ofTable p.idtr, ofSegment p.ldtr, ofSegment p.tr,
    ofFpu p.fpu]

/-- The snapshot of a processor. -/
def save (p : Processor) : Json := .record (processorNames.zip (processorMembers p))

/-- The processor in a snapshot. -/
def load? (value : Json) : Option Processor := do
  match ← value.allFields? processorNames with
  | [regs, eip, eflags, cr0, segs, gdtr, idtr, ldtr, tr, fpu] =>
    some
      { regs := ← regs.vector? 8 (Json.bits? 32)
        eip := ← eip.bits? 32
        eflags := (← eflags.bits? 32) ||| Flags.reserved
        cr0 := ← cr0.bits? 32
        segs := ← segments? segs
        gdtr := ← table? gdtr
        idtr := ← table? idtr
        ldtr := ← segment? ldtr
        tr := ← segment? tr
        fpu := ← fpu? fpu }
  | _ => none

end Snapshot

/-- Takes the processor out of a snapshot, and says whether the value is one.  Any other value
changes nothing. -/
def Machine.restore {H : Type} (m : Machine H) (value : Json) : Bool × Machine H :=
  match Snapshot.load? value with
  | some p => (true, { m with toProcessor := p })
  | none => (false, m)

end Ia32
