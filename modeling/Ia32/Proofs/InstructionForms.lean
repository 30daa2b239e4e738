import Ia32.Instruction
import Ia32.Proofs.AddressForms

/-!
# Lengths of instructions

An instruction is a row of markers, an opcode of one or two bytes, and, as its form
says, a mode byte with the rest of an operand and an immediate.  The tables below give
the form of each opcode.  The width of addresses decides how long the operand is, and
the width of operands decides how long the immediate is.  So the length of an
instruction can be told from its bytes and from the default width of the code.
-/

namespace Ia32

open Host Exec

/-! ## Forms -/

/-- An immediate. -/
inductive Immediate where
  /-- There is none. -/
  | none
  /-- A byte. -/
  | byte
  /-- Two bytes. -/
  | word
  /-- A value of the width of operands. -/
  | full
  /-- An offset of the width of operands and a selector. -/
  | pointer
deriving DecidableEq, Repr

/-- The number of bytes of an immediate, for a width of operands. -/
def Immediate.length (w : Width) : Immediate → Nat
  | .none => 0
  | .byte => 1
  | .word => 2
  | .full => w.bytes
  | .pointer => w.bytes + 2

/-- What follows an opcode in the code. -/
structure Form where
  /-- Whether there is a mode byte, with an operand. -/
  mode : Bool := false
  /-- The immediate. -/
  immediate : Immediate := .none
  /-- Whether the immediate is there for the first two instructions of a group alone. -/
  testOnly : Bool := false
deriving DecidableEq, Repr

namespace Form

/-- The form of an opcode of one byte. -/
def ofOpcode? (opcode : Byte) : Option Form :=
  let n := opcode.toNat
  if n < 0x40 then
    match n % 8 with
    | 0 | 1 | 2 | 3 => some { mode := true }
    | 4 => some { immediate := .byte }
    | 5 => some { immediate := .full }
    | _ => none
  else if n < 0x62 then some {}
  else if 0x70 ≤ n ∧ n < 0x80 then some { immediate := .byte }
  else if 0xD8 ≤ n ∧ n < 0xE0 then some { mode := true }
  else
    match n with
    | 0x84 | 0x85 | 0x8F | 0xD0 | 0xD1 | 0xD2 | 0xD3 | 0xFE | 0xFF => some { mode := true }
    | 0x6B | 0x80 | 0x82 | 0x83 | 0xC0 | 0xC1 => some { mode := true, immediate := .byte }
    | 0x69 | 0x81 => some { mode := true, immediate := .full }
    | 0xF6 => some { mode := true, immediate := .byte, testOnly := true }
    | 0xF7 => some { mode := true, immediate := .full, testOnly := true }
    | 0x6A | 0xA8 | 0xE0 | 0xE1 | 0xE2 | 0xE3 | 0xE4 | 0xE5 | 0xE6 | 0xE7 | 0xEB =>
      some { immediate := .byte }
    | 0x68 | 0xA9 | 0xE8 | 0xE9 => some { immediate := .full }
    | 0xC2 | 0xCA => some { immediate := .word }
    | 0x9A | 0xEA => some { immediate := .pointer }
    | 0x6C | 0x6D | 0x6E | 0x6F | 0x9B | 0xA6 | 0xA7 | 0xAE | 0xAF | 0xC3 | 0xCB | 0xEC | 0xED
    | 0xEE | 0xEF | 0xF5 | 0xF8 | 0xF9 | 0xFC | 0xFD => some {}
    | _ => none

/-- The form of an opcode of two bytes, by its second byte. -/
def ofExtended? (opcode : Byte) : Option Form :=
  let n := opcode.toNat
  if 0x80 ≤ n ∧ n < 0x90 then some { immediate := .full }
  else if 0x90 ≤ n ∧ n < 0xA0 then some { mode := true }
  else if 0xC8 ≤ n ∧ n < 0xD0 then some {}
  else
    match n with
    | 0xA4 | 0xAC | 0xBA => some { mode := true, immediate := .byte }
    | 0xA3 | 0xA5 | 0xAB | 0xAD | 0xAF | 0xB3 | 0xBB | 0xBC | 0xBD => some { mode := true }
    | _ => none

end Form

/-! ## Lengths -/

/-- The number of bytes of an operand behind its mode byte, for a width of addresses.  The list is
the code behind the mode byte. -/
def ModeByte.operandLength? (b : ModeByte) (w : Width) (code : List Byte) : Option Nat :=
  if b.isRegister then some 0
  else if w = .dword ∧ b.rm = 4 then
    code.head?.map fun scale => 1 + (AddressForm.ofScale b.mode scale).displacement
  else some (AddressCode.form ⟨none, []⟩ w b).displacement

namespace Form

/-- The number of bytes of the immediate behind a mode byte. -/
def immediateLength (f : Form) (w : Width) (reg : BitVec 3) : Nat :=
  if f.testOnly ∧ 2 ≤ reg then 0 else f.immediate.length w

/-- The number of bytes behind an opcode, for widths of operands and addresses.  The list is the
code behind the opcode. -/
def length? (f : Form) (operands addresses : Width) (code : List Byte) : Option Nat :=
  if f.mode then
    match code with
    | [] => none
    | first :: rest =>
      let b := ModeByte.ofByte first
      (b.operandLength? addresses rest).map fun n => 1 + n + f.immediateLength operands b.reg
  else some (f.immediate.length operands)

end Form

/-- The width that is the default one or, with a marker, the other one. -/
def Width.ofDefault (wide marker : Bool) : Width := if wide != marker then .dword else .word

/-- The form of the opcode that some code starts with, and the code behind the opcode. -/
def Form.ofCode? : List Byte → Option (Form × List Byte)
  | 0x0F :: second :: rest => (ofExtended? second).map (·, rest)
  | opcode :: rest => (ofOpcode? opcode).map (·, rest)
  | [] => none

/-- The number of bytes of the instruction that some code starts with.  The default width of the
code is 32 or 16 bits. -/
def instructionLength? (wide : Bool) (code : List Byte) : Option Nat := do
  let markers := code.takeWhile markerBytes.contains
  let operands := Width.ofDefault wide (markers.contains 0x66)
  let addresses := Width.ofDefault wide (markers.contains 0x67)
  let (f, rest) ← Form.ofCode? (code.dropWhile markerBytes.contains)
  let n ← f.length? operands addresses rest
  return code.length - rest.length + n

/-! ## Codes -/

/-- Some bytes are what an operand has behind its mode byte, for a width of addresses. -/
def ModeByte.OperandCode (b : ModeByte) (w : Width) (code : List Byte) : Prop :=
  if b.isRegister then code = [] else ∃ c : AddressCode, c.Fits w b ∧ code = c.bytes

theorem ModeByte.operandLength?_append {b : ModeByte} {w : Width} {code : List Byte}
    (h : b.OperandCode w code) (rest : List Byte) :
    b.operandLength? w (code ++ rest) = some code.length := by
  unfold OperandCode at h
  unfold operandLength?
  split at h
  next hregister =>
    rw [if_pos hregister, h]
    rfl
  next hmemory =>
    obtain ⟨⟨scale?, d⟩, ⟨hscale, hlength⟩, rfl⟩ := h
    rw [if_neg hmemory]
    by_cases hscaled : w = .dword ∧ b.rm = 4
    · rw [if_pos hscaled]
      obtain ⟨rfl, hrm⟩ := hscaled
      rw [hrm] at hscale
      obtain ⟨scale, rfl⟩ := Option.isSome_iff_exists.1 hscale
      have hd : d.length = (AddressForm.ofScale b.mode scale).displacement := hlength
      change some (1 + _) = some (d.length + 1)
      rw [← hd, Nat.add_comm]
    · rw [if_neg hscaled]
      have hnone : scale?.isSome = false := by
        rw [hscale]
        simpa using hscaled
      rw [Option.isSome_eq_false_iff, Option.isNone_iff_eq_none] at hnone
      subst hnone
      exact congrArg some hlength.symm

namespace Form

/-- Some bytes are what an instruction has behind its opcode: whatever follows them, they have the
length that the form gives. -/
def Fits (f : Form) (operands addresses : Width) (code : List Byte) : Prop :=
  ∀ rest, f.length? operands addresses (code ++ rest) = some code.length

variable {f : Form} {operands addresses : Width} {code immediate : List Byte} {first : Byte}

theorem fits_of_immediate (hf : f.mode = false)
    (h : immediate.length = f.immediate.length operands) : f.Fits operands addresses immediate := by
  intro rest
  unfold length?
  rw [if_neg (by rw [hf]; exact Bool.false_ne_true), h]

theorem fits_of_mode (hf : f.mode = true)
    (h : (ModeByte.ofByte first).OperandCode addresses code)
    (hi : immediate.length = f.immediateLength operands (ModeByte.ofByte first).reg) :
    f.Fits operands addresses (first :: code ++ immediate) := by
  intro rest
  unfold length?
  rw [if_pos hf, List.append_assoc, List.cons_append]
  simp only [ModeByte.operandLength?_append h, Option.map_some, List.length_append,
    List.length_cons, hi]
  rw [Nat.add_comm 1]

end Form

/-- A row of markers, an opcode and what its form calls for are as long as an instruction. -/
theorem instructionLength?_append {markers opcode code : List Byte} {f : Form} {wide : Bool}
    (hmarkers : ∀ b ∈ markers, b ∈ markerBytes) (hopcode : opcode.head?.all (· ∉ markerBytes))
    (hf : ∀ rest, Form.ofCode? (opcode ++ rest) = some (f, rest))
    (h : f.Fits (.ofDefault wide (markers.contains 0x66)) (.ofDefault wide (markers.contains 0x67))
      code) (rest : List Byte) :
    instructionLength? wide (markers ++ opcode ++ code ++ rest)
      = some (markers ++ opcode ++ code).length := by
  have hall : ∀ b ∈ markers, markerBytes.contains b = true := fun b hb =>
    List.contains_iff_mem.2 (hmarkers b hb)
  obtain ⟨first, tail, rfl⟩ : ∃ first tail, opcode = first :: tail := by
    cases opcode with
    | nil => exact nomatch hf []
    | cons first tail => exact ⟨first, tail, rfl⟩
  have hfirst : ¬markerBytes.contains first = true := by simpa using hopcode
  have hrow :
      (markers ++ first :: tail ++ code ++ rest).takeWhile markerBytes.contains = markers := by
    rw [List.append_assoc, List.append_assoc, List.takeWhile_append_of_pos hall, List.cons_append,
      List.takeWhile_cons_of_neg hfirst, List.append_nil]
  have hbody : (markers ++ first :: tail ++ code ++ rest).dropWhile markerBytes.contains
      = first :: tail ++ (code ++ rest) := by
    rw [List.append_assoc, List.append_assoc, List.dropWhile_append_of_pos hall, List.cons_append,
      List.dropWhile_cons_of_neg hfirst]
  rw [instructionLength?, hrow, hbody, hf]
  simp only [Option.bind_eq_bind, Option.bind_some, h rest, List.length_append, List.length_cons]
  exact congrArg some (by omega)

/-! ## Forms of instructions -/

/-- The immediate of a size. -/
def Size.immediate : Size → Immediate
  | .byte => .byte
  | .full => .full

/-- An immediate that is a byte, or one of the width of operands. -/
def Immediate.ofShort (short : Bool) : Immediate := if short then .byte else .full

/-- What follows the opcode of an instruction. -/
def Instruction.form : Instruction → Form
  | .aluToOperand _ _ | .aluToRegister _ _ | .testRegister _ | .incrementByte | .indirectGroup
  | .multiplyRegister | .setCondition _ | .bitScan _ | .bitByRegister _ | .popOperand
  | .escape _ => { mode := true }
  | .aluAccumulator size _ | .testAccumulator size => { immediate := size.immediate }
  | .aluImmediate size short =>
    { mode := true, immediate := if short then .byte else size.immediate }
  | .unaryGroup size => { mode := true, immediate := size.immediate, testOnly := true }
  | .multiplyImmediate short => { mode := true, immediate := .ofShort short }
  | .shiftGroup _ count | .doubleShift _ count =>
    { mode := true, immediate := if count = .immediate then .byte else .none }
  | .bitByImmediate => { mode := true, immediate := .byte }
  | .pushImmediate short | .jump short | .jumpIf _ short => { immediate := .ofShort short }
  | .input _ port | .output _ port =>
    { immediate := if port = .immediate then .byte else .none }
  | .loop _ | .jumpIfCounterZero => { immediate := .byte }
  | .call => { immediate := .full }
  | .retReleasing | .retFarReleasing => { immediate := .word }
  | .far _ => { immediate := .pointer }
  | .incrementRegister _ | .decrementRegister _ | .changeFlag _ | .swapBytes _ | .pushRegister _
  | .popRegister _ | .pushAll | .popAll | .compareStrings _ | .scanString _ | .inputString _
  | .outputString _ | .ret | .retFar | .wait => {}

namespace Instruction

/-- The table gives the form of the instruction of an opcode. -/
theorem form_decode {opcode : Byte} {i : Instruction} (h : decode opcode = .ok i) :
    Form.ofOpcode? opcode = some i.form := by
  have htable : ∀ opcode : Byte,
      (decode opcode).toOption.all (Form.ofOpcode? opcode == some ·.form) = true := by
    decide +kernel
  have hrow := htable opcode
  rw [h] at hrow
  exact beq_iff_eq.1 hrow

theorem form_decodeExtended {opcode : Byte} {i : Instruction} (h : decodeExtended opcode = .ok i) :
    Form.ofExtended? opcode = some i.form := by
  have htable : ∀ opcode : Byte,
      (decodeExtended opcode).toOption.all (Form.ofExtended? opcode == some ·.form) = true := by
    decide +kernel
  have hrow := htable opcode
  rw [h] at hrow
  exact beq_iff_eq.1 hrow

end Instruction

end Ia32
