import Ia32.Config
import Ia32.Host
import Ia32.Log
import Ia32.Processor

/-!
# Machines

A machine is a processor with its host, its configuration and its log.  Programs
on a machine are written in `Exec`: they may end in a fault, and what they did
before the fault stays done.
-/

namespace Ia32

/-- The count of instructions goes around, and zero is one of its values. -/
instance Machine.neZero : @NeZero Nat Zero.ofOfNat0 UInt64.size := ⟨Nat.succ_ne_zero _⟩

/-- A processor in its surroundings. -/
structure Machine (H : Type) extends Processor where
  /-- Memory and ports. -/
  host : H
  /-- The choices for the processor. -/
  config : Config
  /-- The log. -/
  log : Log
  /-- How many instructions were completed, modulo `2 ^ 64`. -/
  retired : Fin UInt64.size

/-- A machine at power-on. -/
def Machine.initial {H : Type} (host : H) (config : Config) : Machine H :=
  { Processor.initial with host := host, config := config, log := .silent, retired := 0 }

/-- A machine after a reset.  The host, the configuration and the log stay. -/
def Machine.reset {H : Type} (m : Machine H) : Machine H :=
  { m with toProcessor := .initial, retired := 0 }

/-- A program that works on a machine and may end in a fault. -/
abbrev Exec (H : Type) := EStateM Fault (Machine H)

namespace Exec

variable {H : Type}

/-- Reads something off the processor. -/
def view {α : Type} (f : Processor → α) : Exec H α := return f (← get).toProcessor

/-- Changes the processor. -/
def update (f : Processor → Processor) : Exec H Unit :=
  modify fun m => { m with toProcessor := f m.toProcessor }

/-- Logs a message about the machine as it is. -/
def note (category : Log.Category) (level : Log.Level) (message : Machine H → String) :
    Exec H Unit :=
  modify fun m => { m with log := m.log.write category level fun _ => message m }

/-- Changes the processor in a way that also gives an answer. -/
def updateWith {α : Type} (f : Processor → α × Processor) : Exec H α :=
  modifyGet fun m =>
    let (answer, p) := f m.toProcessor
    (answer, { m with toProcessor := p })

end Exec

/-! ## Prefixes -/

/-- Whether a repeated string instruction goes on while the zero flag is set. -/
inductive RepeatMode where
  /-- It goes on while the flag is set. -/
  | whileZero
  /-- It goes on while the flag is clear. -/
  | whileNonzero
deriving DecidableEq, Repr

/-- Whether an instruction goes on with the zero flag as it is. -/
def RepeatMode.accepts (mode : RepeatMode) (zero : Bool) : Bool := zero == (mode == .whileZero)

/-- What stands before the opcode of an instruction, and where it starts. -/
structure Prefixes where
  /-- The offset of the first byte. -/
  start : Dword
  /-- Whether the bus is locked. -/
  lock : Bool := false
  /-- How a string instruction is repeated. -/
  repeats : Option RepeatMode := none
  /-- The segment of memory operands. -/
  segment : Option Seg := none
  /-- Whether operands have the width that is not the default one. -/
  operandSize : Bool := false
  /-- Whether addresses have the width that is not the default one. -/
  addressSize : Bool := false
deriving DecidableEq, Repr

namespace Prefixes

/-- The segment of a memory operand. -/
def dataSegment (p : Prefixes) (default : Seg) : Seg := p.segment.getD default

/-- Whether operands have 32 bits. -/
def operand32 (p : Prefixes) (s : Processor) : Bool := s.segs.cs.is32 != p.operandSize

/-- Whether addresses have 32 bits. -/
def address32 (p : Prefixes) (s : Processor) : Bool := s.segs.cs.is32 != p.addressSize

/-- The width of operands. -/
def operandWidth (p : Prefixes) (s : Processor) : Width := if p.operand32 s then .dword else .word

/-- The width of addresses. -/
def addressWidth (p : Prefixes) (s : Processor) : Width := if p.address32 s then .dword else .word

end Prefixes

namespace Exec

variable {H : Type}

/-- Refuses a locked instruction. -/
def checkLock (p : Prefixes) : Exec H Unit := if p.lock then throw .invalidOpcode else pure ()

/-- The width of operands. -/
def operandWidth (p : Prefixes) : Exec H Width := view p.operandWidth

end Exec

end Ia32
