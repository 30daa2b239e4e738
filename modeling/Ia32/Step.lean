import Ia32.Instruction

/-!
# Steps

A step runs one instruction: markers, an opcode, and what follows it.  After a
fault the instruction pointer stands at the first byte of the instruction again,
so that the instruction can be run once more when the fault is dealt with.  What
else the instruction did before the fault stays done.
-/

namespace Ia32

/-! ## Markers -/

/-- The markers with one more, if a byte is a marker. -/
def Prefixes.extend? (p : Prefixes) (b : Byte) : Option Prefixes :=
  match b.toNat with
  | 0xF0 => some { p with lock := true }
  | 0xF2 => some { p with repeats := some .whileNonzero }
  | 0xF3 => some { p with repeats := some .whileZero }
  | 0x26 => some { p with segment := some .es }
  | 0x2E => some { p with segment := some .cs }
  | 0x36 => some { p with segment := some .ss }
  | 0x3E => some { p with segment := some .ds }
  | 0x64 => some { p with segment := some .fs }
  | 0x65 => some { p with segment := some .gs }
  | 0x66 => some { p with operandSize := true }
  | 0x67 => some { p with addressSize := true }
  | _ => none

namespace Exec

variable {H : Type} [Host H]

/-- What stands at the front of an instruction. -/
structure Opening where
  /-- The markers. -/
  markers : Prefixes
  /-- The first byte that is no marker. -/
  opcode : Byte
deriving DecidableEq, Repr

/-- Takes markers and an opcode from the code.  The answer is none when `limit` bytes are all
markers. -/
def fetchOpening : (limit : Nat) → Prefixes → Exec H (Option Opening)
  | 0, _ => return none
  | limit + 1, p => do
    let b ← fetch8
    match p.extend? b with
    | some p => fetchOpening limit p
    | none => return some ⟨p, b⟩

/-- The number of offsets.  Offsets go around, so that many markers in a row have no end. -/
def offsetCount : Nat := Nat.pow 2 32

/-- The message about an instruction that begins. -/
def traceMessage (s : Processor) (start : Dword) (opcode : Byte) : String :=
  let hex (value : Dword) := Hex.upper 8 value.toNat
  let cs := Hex.upper 4 s.segs.cs.selector.toNat
  let opcode := Hex.upper 2 opcode.toNat
  let eax := hex (s.reg .dword Reg.eax)
  let ecx := hex (s.reg .dword Reg.ecx)
  let edx := hex (s.reg .dword Reg.edx)
  let ebx := hex (s.reg .dword Reg.ebx)
  let esp := hex (s.reg .dword Reg.esp)
  let place := s!"{cs}:{hex start} opcode {opcode}"
  let regs := s!"EAX={eax} ECX={ecx} EDX={edx} EBX={ebx} ESP={esp}"
  s!"{place} {regs} EFLAGS={hex s.eflags}"

/-- The instruction of an opcode, with the second byte that some opcodes have. -/
def decodeOpcode (p : Prefixes) (opcode : Byte) : Exec H (Except Feature Instruction) := do
  note .cpu .trace fun m => traceMessage m.toProcessor p.start opcode
  if opcode = 0x0F then return Instruction.decodeExtended (← fetch8)
  else return Instruction.decode opcode

/-- An instruction as the code has it. -/
structure Decoded where
  /-- The markers before it. -/
  markers : Prefixes
  /-- The instruction, or the feature that is missing for it. -/
  instruction : Except Feature Instruction

/-- Takes an instruction from the code, up to its opcode.  The answer is none when there are
only markers. -/
def fetchInstruction : Exec H (Option Decoded) := do
  let start ← view (·.eip)
  match ← fetchOpening offsetCount { start := start } with
  | some opening => return some ⟨opening.markers, ← decodeOpcode opening.markers opening.opcode⟩
  | none => return none

/-- Runs the instruction at the instruction pointer.  Says whether there is one. -/
def execute : Exec H Bool := do
  match ← fetchInstruction with
  | some ⟨p, .ok instruction⟩ =>
    runInstruction p instruction
    return true
  | some ⟨_, .error feature⟩ => throw (.unimplemented feature)
  | none => return false

end Exec

namespace Machine

variable {H : Type}

/-! ## Faults -/

/-- Where an instruction starts, as messages show it. -/
def placeText (m : Machine H) : String :=
  let cs := Hex.upper 4 m.segs.cs.selector.toNat
  let eip := Hex.upper 8 m.eip.toNat
  s!"{cs}:{eip}"

/-- Logs the fault of the instruction at the instruction pointer. -/
def logFault (m : Machine H) (fault : Fault) : Machine H :=
  match fault with
  | .unimplemented feature =>
    { m with log := m.log.write .stubs .error fun _ =>
        s!"not implemented at {m.placeText}: {feature.name}" }
  | _ =>
    { m with log := m.log.write .faults .debug fun _ => s!"{fault.message} at {m.placeText}" }

/-- The machine after a fault of the instruction at `start`. -/
def afterFault (m : Machine H) (start : Dword) (fault : Fault) : Machine H :=
  { m with eip := start }.logFault fault

/-! ## Steps -/

variable [Host H]

/-- How a step ends. -/
inductive StepEnd where
  /-- The instruction was completed. -/
  | completed
  /-- The instruction ended in a fault. -/
  | fault (f : Fault)
  /-- It does not end: every offset of the code segment holds a marker. -/
  | never
deriving DecidableEq, Repr

/-- Runs one instruction. -/
def step (m : Machine H) : StepEnd × Machine H :=
  match EStateM.run Exec.execute m with
  | .ok true m => (.completed, { m with retired := m.retired + 1 })
  | .ok false m => (.never, m)
  | .error fault after => (.fault fault, after.afterFault m.eip fault)

/-- How a run of steps ends. -/
structure RunEnd where
  /-- How many instructions were completed. -/
  completed : Nat
  /-- How the last step ended. -/
  last : StepEnd
deriving DecidableEq, Repr

/-- Runs up to `count` instructions, until one is not completed. -/
def run : (count : Nat) → Machine H → RunEnd × Machine H
  | 0, m => (⟨0, .completed⟩, m)
  | count + 1, m =>
    match m.step with
    | (.completed, m) =>
      let (rest, m) := run count m
      ({ rest with completed := rest.completed + 1 }, m)
    | (last, m) => (⟨0, last⟩, m)

end Machine

end Ia32
