import Ia32.Exec.Memory

/-!
# Descriptor tables and the task state segment

A selector names an entry of the global or of the local descriptor table.  The
whole entry must lie inside the table.  The task state segment holds a stack for
each privilege level, and a map with one bit for each port that says whether the
port is forbidden.
-/

namespace Ia32.Exec

variable {H : Type} [Host H]

/-! ## Descriptors -/

/-- Whether a selector names an entry of the local table. -/
def isLocal (selector : Word) : Bool := selector &&& 0x4 != 0

/-- The offset of a selector's entry in its table. -/
def entryOffset (selector : Word) : Dword := (selector &&& 0xFFF8).setWidth 32

/-- The start of a selector's table. -/
def tableBase (s : Processor) (selector : Word) : Dword :=
  if isLocal selector then s.ldtr.base else s.gdtr.base

/-- The offset of the last byte of a selector's table. -/
def tableLast (s : Processor) (selector : Word) : Dword :=
  if isLocal selector then s.ldtr.lastByte else s.gdtr.limit.setWidth 32

/-- The linear address of a selector's entry. -/
def entryAddress (s : Processor) (selector : Word) : Dword :=
  tableBase s selector + entryOffset selector

/-- Whether a selector has an entry. -/
def hasEntry (s : Processor) (selector : Word) : Bool :=
  !(isLocal selector && s.ldtr.isNull)
    && (entryOffset selector).toNat + 7 ≤ (tableLast s selector).toNat

/-- Reads the descriptor that a selector names. -/
def readDescriptor (selector : Word) : Exec H Descriptor := do
  if !(← view (hasEntry · selector)) then throw (Fault.protectionAt selector)
  let address ← view (entryAddress · selector)
  return .ofBytes (← readLinear address 8)

/-- Marks the descriptor that a selector names as accessed, unless it is marked already. -/
def markAccessed (selector : Word) : Exec H Unit := do
  let d ← readDescriptor selector
  if !d.isAccessed then
    let address ← view (entryAddress · selector)
    writeLinear (address + 4) (bytesOf 4 d.accessed.high.toNat)

/-! ## The task state segment -/

/-- A place on a stack: the selector of its segment and an offset. -/
structure StackPointer where
  /-- The selector of the stack segment. -/
  selector : Word
  /-- The stack pointer. -/
  offset : Dword
deriving DecidableEq, Repr

/-- The stack of a privilege level. -/
def taskStack (level : Byte) : Exec H StackPointer := do
  let tr ← view (·.tr)
  if !tr.tssIs32 then throw (.unimplemented .tss16Stack)
  let offset := 8 * level.toNat + 4
  if tr.lastByte.toNat < offset + 5 then throw (Fault.invalidTssAt tr.selector)
  let esp ← readLinearValue (tr.base + BitVec.ofNat 32 offset) 4
  let ss ← readLinearValue (tr.base + BitVec.ofNat 32 (offset + 4)) 2
  return ⟨BitVec.ofNat 16 ss, BitVec.ofNat 32 esp⟩

/-! ## The port map -/

/-- The offset of the last byte of the fixed part of a task state segment. -/
def fixedPartLast : Nat := 103

/-- Whether the map lets a program use `count` ports.  The bit of port `k` is bit `k % 8` of
byte `k / 8` of the map, and it must lie inside the segment. -/
def portsAllowed (tr : SegmentCache) (mapBase port : Nat) : Nat → Exec H Bool
  | 0 => return true
  | count + 1 => do
    let offset := mapBase + port / 8
    if tr.lastByte.toNat < offset then return false
    let byte ← readLinearValue (tr.base + BitVec.ofNat 32 offset) 1
    if byte.testBit (port % 8) then return false
    portsAllowed tr mapBase (port + 1) count

/-- Whether the task state segment lets a program use `count` ports from `port` on.  One
without a map allows none. -/
def ioPermitted (port : Word) (count : Nat) : Exec H Bool := do
  let tr ← view (·.tr)
  if !tr.tssIs32 || tr.lastByte.toNat < fixedPartLast then return false
  let mapBase ← readLinearValue (tr.base + 102) 2
  portsAllowed tr mapBase port.toNat count

end Ia32.Exec
