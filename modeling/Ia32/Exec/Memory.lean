import Ia32.Machine

/-!
# Memory access

Memory is addressed by a segment and an offset.  An access is checked against
the rights and the bounds of the segment, and then goes to the host byte by
byte, least significant byte first.  The host is asked about a whole store
before its first byte is written.
-/

namespace Ia32.Exec

variable {H : Type}

/-- What an access does. -/
inductive Access where
  /-- It reads. -/
  | read
  /-- It writes. -/
  | write
deriving DecidableEq, Repr

/-! ## Checks -/

/-- Whether a segment grants an access. -/
def Access.grantedBy (access : Access) (cache : SegmentCache) : Bool :=
  match access with
  | .read => cache.readable
  | .write => cache.writable

/-- The message about a denied access. -/
def deniedMessage (access : Access) (cache : SegmentCache) (offset : Dword) : String :=
  let kind := match access with
    | .read => "read"
    | .write => "write"
  let selector := Hex.upper 4 cache.selector.toNat
  let offset := Hex.upper 8 offset.toNat
  s!"{kind} access denied on selector {selector} at offset {offset}"

/-- The message about an access out of bounds. -/
def boundsMessage (cache : SegmentCache) (offset : Dword) (len : Nat) : String :=
  let selector := Hex.upper 4 cache.selector.toNat
  let offset := Hex.upper 8 offset.toNat
  let first := Hex.upper 8 cache.firstByte.toNat
  let last := Hex.upper 8 cache.lastByte.toNat
  s!"limit violation: selector {selector} offset {offset} len {len} bounds {first}..={last}"

/-- Checks an access to `len` bytes of a segment, and gives their linear address.  Rights
count in protected mode only. -/
def checkAccess (cache : SegmentCache) (onStack : Bool) (offset : Dword) (len : Nat)
    (access : Access) : Exec H Dword := do
  if ← view (·.usesDescriptors) then
    if cache.isNull then throw (.generalProtection 0)
    if !access.grantedBy cache then
      note .memory .debug fun _ => deniedMessage access cache offset
      throw (.generalProtection 0)
  if !cache.contains offset len then
    note .memory .debug fun _ => boundsMessage cache offset len
    throw (if onStack then .stackFault 0 else .generalProtection 0)
  return cache.base + offset

/-- Checks an access through a segment register. -/
def linearOf (seg : Seg) (offset : Dword) (len : Nat) (access : Access) : Exec H Dword := do
  let cache ← view (·.segs.get seg)
  checkAccess cache (seg == .ss) offset len access

variable [Host H]

/-! ## Linear addresses -/

/-- Reads bytes from the host, from an address on. -/
def hostBytes (h : H) (linear : Dword) : Nat → Except Fault (List Byte)
  | 0 => .ok []
  | n + 1 => do
    let b ← Host.read h linear
    let bs ← hostBytes h (linear + 1) n
    return b :: bs

/-- Reads bytes from a linear address on. -/
def readLinear (linear : Dword) (n : Nat) : Exec H (List Byte) := do
  match hostBytes (← get).host linear n with
  | .ok bytes => return bytes
  | .error fault => throw fault

/-- Reads a number from a linear address. -/
def readLinearValue (linear : Dword) (n : Nat) : Exec H Nat :=
  return littleEndian (← readLinear linear n)

/-- Raises a fault of the host, if there is one. -/
def raiseIf : Option Fault → Exec H Unit
  | some fault => throw fault
  | none => pure ()

/-- Stores bytes one after the other. -/
def storeEach (linear : Dword) : List Byte → Exec H Unit
  | [] => pure ()
  | b :: bs => do
    raiseIf (Host.storeFault (← get).host linear)
    modify fun m => { m with host := Host.store m.host linear b }
    storeEach (linear + 1) bs

/-- Stores bytes from a linear address on. -/
def writeLinear (linear : Dword) (bytes : List Byte) : Exec H Unit := do
  raiseIf (Host.checkRange (← get).host linear bytes.length)
  storeEach linear bytes

/-! ## Segments and offsets -/

/-- Reads bytes of a segment. -/
def loadBytes (seg : Seg) (offset : Dword) (n : Nat) : Exec H (List Byte) := do
  readLinear (← linearOf seg offset n .read) n

/-- Reads a value of a width. -/
def load (w : Width) (seg : Seg) (offset : Dword) : Exec H Dword :=
  return BitVec.ofNat 32 (littleEndian (← loadBytes seg offset w.bytes))

/-- Stores bytes in a segment. -/
def storeBytes (seg : Seg) (offset : Dword) (bytes : List Byte) : Exec H Unit := do
  writeLinear (← linearOf seg offset bytes.length .write) bytes

/-- Stores a value of a width. -/
def store (w : Width) (seg : Seg) (offset value : Dword) : Exec H Unit :=
  storeBytes seg offset (bytesOf w.bytes value.toNat)

/-- Stores a value in a stack segment that is not loaded yet. -/
def storeThrough (w : Width) (cache : SegmentCache) (offset value : Dword) : Exec H Unit := do
  writeLinear (← checkAccess cache true offset w.bytes .write) (bytesOf w.bytes value.toNat)

/-! ## The code stream -/

/-- Takes the next byte of code. -/
def fetch8 : Exec H Byte := do
  let cs ← view (·.segs.cs)
  let eip ← view (·.eip)
  if !cs.contains eip 1 then throw (.generalProtection 0)
  match Host.read (← get).host (cs.base + eip) with
  | .ok b =>
    update fun s => { s with eip := s.eip + 1 }
    return b
  | .error fault => throw fault

/-- Takes the next bytes of code. -/
def fetchBytes : Nat → Exec H (List Byte)
  | 0 => return []
  | n + 1 => do
    let b ← fetch8
    let bs ← fetchBytes n
    return b :: bs

/-- Takes a value of a width from the code. -/
def fetch (w : Width) : Exec H Dword :=
  return BitVec.ofNat 32 (littleEndian (← fetchBytes w.bytes))

/-- Takes a byte from the code and extends it with its sign. -/
def fetchSigned8 : Exec H Dword := return (← fetch8).signExtend 32

/-- Takes an immediate from the code: a value of the width, or a byte that is extended with its
sign. -/
def fetchImmediate (w : Width) (short : Bool) : Exec H Dword :=
  if short then return w.truncate (← fetchSigned8) else fetch w

/-! ## The stack -/

/-- Pushes a value. -/
def push (w : Width) (value : Dword) : Exec H Unit := do
  let sp ← view (·.spPlus (-(BitVec.ofNat 32 w.bytes)))
  store w .ss sp value
  update (·.setSp sp)

/-- Pops a value. -/
def pop (w : Width) : Exec H Dword := do
  let value ← load w .ss (← view (·.sp))
  update fun s => s.setSp (s.spPlus (BitVec.ofNat 32 w.bytes))
  return value

end Ia32.Exec
