import Ia32.Exec.Memory

/-!
# Operands

A mode byte names a register and a second operand, which is a register or a
place in memory.  The address of a place in memory is a sum of registers and a
displacement.  It is formed in 16 or 32 bits and wraps at that width.  Addresses
that start from a stack or frame pointer lie in the stack segment by default,
all others in the data segment.
-/

namespace Ia32

/-- A mode byte, cut into its fields. -/
structure ModeByte where
  /-- How the second operand is addressed. -/
  mode : BitVec 2
  /-- The first operand, or a part of the opcode. -/
  reg : BitVec 3
  /-- The second operand. -/
  rm : BitVec 3
deriving DecidableEq, Repr

namespace ModeByte

/-- The fields of a mode byte. -/
def ofByte (b : Byte) : ModeByte := ⟨b.extractLsb' 6 2, b.extractLsb' 3 3, b.extractLsb' 0 3⟩

/-- The mode byte with given fields. -/
def toByte (m : ModeByte) : Byte := m.mode ++ m.reg ++ m.rm

theorem toByte_ofByte (b : Byte) : (ofByte b).toByte = b := by
  revert b; decide

/-- Whether the second operand is a register. -/
def isRegister (m : ModeByte) : Bool := m.mode == 3

/-- The register that the first field names. -/
def firstRegister (m : ModeByte) : Reg := .ofBits m.reg

end ModeByte

/-- Where an operand is. -/
inductive Operand where
  /-- In a register. -/
  | register (r : Reg)
  /-- In memory. -/
  | memory (seg : Seg) (offset : Dword)
deriving DecidableEq, Repr

/-- Whether an operand is in memory. -/
def Operand.isMemory : Operand → Bool
  | .memory _ _ => true
  | .register _ => false

namespace Exec

variable {H : Type} [Host H]

/-! ## Addresses of 16 bits -/

/-- The registers whose sum starts a 16-bit address, and the default segment. -/
def base16 (s : Processor) (rm : BitVec 3) : Seg × Dword :=
  let bx := s.reg .word Reg.ebx
  let bp := s.reg .word Reg.ebp
  let si := s.reg .word Reg.esi
  let di := s.reg .word Reg.edi
  match rm.toNat with
  | 0 => (.ds, bx + si)
  | 1 => (.ds, bx + di)
  | 2 => (.ss, bp + si)
  | 3 => (.ss, bp + di)
  | 4 => (.ds, si)
  | 5 => (.ds, di)
  | 6 => (.ss, bp)
  | _ => (.ds, bx)

/-- A 16-bit address.  Mode zero has no displacement, but for field six, where the
displacement is the whole address. -/
def address16 (mode : BitVec 2) (rm : BitVec 3) : Exec H (Seg × Dword) := do
  if mode = 0 && rm = 6 then
    return (.ds, ← fetch .word)
  let displacement ←
    if mode = 0 then pure 0
    else if mode = 1 then fetchSigned8
    else fetch .word
  let (seg, base) ← view (base16 · rm)
  return (seg, Width.word.truncate (base + displacement))

/-! ## Addresses of 32 bits -/

/-- The default segment of addresses that start from a register. -/
def baseSegment (r : Reg) : Seg := if r = Reg.esp ∨ r = Reg.ebp then .ss else .ds

/-- The start of an address with a scale byte: a base, which may be a displacement instead of a
register, and a scaled index.  Index four stands for no index. -/
def scaledBase (mode : BitVec 2) : Exec H (Seg × Dword) := do
  let b ← fetch8
  let scale := (b.extractLsb' 6 2).toNat
  let index := Reg.ofBits (b.extractLsb' 3 3)
  let baseField := Reg.ofBits (b.extractLsb' 0 3)
  let (seg, base) ←
    if baseField = Reg.ebp && mode = 0 then pure (Seg.ds, ← fetch .dword)
    else pure (baseSegment baseField, ← view (·.reg .dword baseField))
  let offset ← if index = Reg.esp then pure 0 else view fun s => s.reg .dword index <<< scale
  return (seg, base + offset)

/-- A 32-bit address.  Field four calls for a scale byte; field five of mode zero is a
displacement alone. -/
def address32 (mode : BitVec 2) (rm : BitVec 3) : Exec H (Seg × Dword) := do
  if mode = 0 && rm = 5 then
    return (.ds, ← fetch .dword)
  let (seg, base) ←
    if rm = 4 then scaledBase mode
    else pure (baseSegment (Reg.ofBits rm), ← view (·.reg .dword (Reg.ofBits rm)))
  let displacement ←
    if mode = 1 then fetchSigned8
    else if mode = 2 then fetch .dword
    else pure 0
  return (seg, base + displacement)

/-! ## Operands -/

/-- The second operand of a mode byte, with what follows the byte in the code. -/
def operand (p : Prefixes) (m : ModeByte) : Exec H Operand := do
  if m.isRegister then return .register (Reg.ofBits m.rm)
  let (seg, offset) ←
    if ← view p.address32 then address32 m.mode m.rm else address16 m.mode m.rm
  return .memory (p.dataSegment seg) offset

/-- Takes a mode byte from the code, and its second operand. -/
def fetchOperand (p : Prefixes) : Exec H (ModeByte × Operand) := do
  let m := ModeByte.ofByte (← fetch8)
  return (m, ← operand p m)

/-- Reads an operand. -/
def readOperand (w : Width) : Operand → Exec H Dword
  | .register r => view (·.reg w r)
  | .memory seg offset => load w seg offset

/-- Writes an operand. -/
def writeOperand (w : Width) (place : Operand) (value : Dword) : Exec H Unit :=
  match place with
  | .register r => update (·.setReg w r value)
  | .memory seg offset => store w seg offset value

/-- The place of an operand that must be in memory. -/
def memoryPlace : Operand → Exec H (Seg × Dword)
  | .memory seg offset => return (seg, offset)
  | .register _ => throw .invalidOpcode

/-- Refuses a locked instruction unless its operand is in memory. -/
def checkLockOn (p : Prefixes) (place : Operand) : Exec H Unit :=
  if place.isMemory then pure () else checkLock p

end Exec

end Ia32
