import Ia32.Exec.Operand

/-!
# Exceptions of the floating-point unit

An instruction of the unit may be stopped by an exception that is not masked.
That is no fault: the instruction ends, and the next one that waits for the unit
finds the exception pending.  Programs that can be stopped are written in
`FloatExec`.

A masked exception is recorded, and the instruction goes on with a default
result.  An empty register that is read counts as the indefinite NaN.
-/

namespace Ia32

/-- A program that an exception may stop.  What it did before that stays done. -/
abbrev FloatExec (H : Type) := OptionT (Exec H)

namespace Exec

variable {H : Type}

/-- Changes the floating-point unit. -/
def updateFpu (f : Fpu → Fpu) : Exec H Unit := update fun s => { s with fpu := f s.fpu }

/-! ## Entry -/

/-- Refuses an instruction of the unit that is locked, or for which there is no unit. -/
def checkAvailable (p : Prefixes) : Exec H Unit := do
  checkLock p
  if ← view fun s => s.cr0 &&& (Control.emulation ||| Control.taskSwitched) != 0 then
    throw .deviceNotAvailable

/-- Refuses an instruction that waits for the unit while an exception is pending.  Then
clears condition one. -/
def checkReady (p : Prefixes) : Exec H Unit := do
  checkAvailable p
  if ← view (·.fpu.isPending) then throw (.unimplemented .pendingException)
  updateFpu (·.setCondition Status.c1 false)

end Exec

namespace FloatExec

variable {H : Type}

/-- Reads something off the unit. -/
def view {α : Type} (f : Fpu → α) : FloatExec H α :=
  (Exec.view fun s => f s.fpu : Exec H α)

/-- Changes the unit. -/
def update (f : Fpu → Fpu) : FloatExec H Unit := (Exec.updateFpu f : Exec H Unit)

/-- Runs a program, whether it is stopped or not. -/
def toExec (action : FloatExec H Unit) : Exec H Unit := do
  let _ ← action.run

/-! ## Raising -/

/-- The message about an exception that stops an instruction. -/
def stopMessage (p : Prefixes) (bits : Word) (f : Fpu) : String :=
  let bits := Hex.upper 2 (bits &&& Status.exceptions).toNat
  let start := Hex.upper 8 p.start.toNat
  let control := Hex.upper 4 f.control.toNat
  s!"unmasked x87 exception {bits} at {start} (control {control})"

/-- Records exceptions, and says whether one of them is not masked. -/
def record (bits : Word) : Exec H Bool :=
  Exec.updateWith fun s =>
    let (stops, f) := s.fpu.raise bits
    (stops, { s with fpu := f })

/-- Raises exceptions.  One that is not masked stops the program. -/
def raise (p : Prefixes) (bits : Word) : FloatExec H Unit := do
  if ← (record bits : Exec H Bool) then
    (Exec.note .fpu .debug fun m => stopMessage p bits m.fpu : Exec H Unit)
    failure

/-- Raises one exception, if it is among some. -/
def raiseIfAmong (p : Prefixes) (exceptions bit : Word) : FloatExec H Unit :=
  if exceptions &&& bit = 0 then pure () else raise p bit

/-- Raises those of some exceptions that are in a list, in the order of the list.  An inexact
result clears condition one. -/
def raiseEach (p : Prefixes) (exceptions : Word) : List Word → FloatExec H Unit
  | [] => pure ()
  | bit :: bits => do
    if exceptions &&& bit ≠ 0 then
      if bit = Exception.precision then update (·.setCondition Status.c1 false)
      raise p bit
    raiseEach p exceptions bits

/-- Raises the exceptions of a result in the order of their priority. -/
def raiseAfter (p : Prefixes) (exceptions : Word) : FloatExec H Unit :=
  raiseEach p exceptions
    [Exception.overflow, Exception.underflow, Exception.invalid, Exception.zeroDivide,
      Exception.precision]

/-! ## The register stack -/

/-- The exceptions of an empty or full register stack. -/
def stackExceptions : Word := Exception.invalid ||| Status.stackFault

/-- Raises an exception when a register is empty. -/
def requireFull (p : Prefixes) (i : Nat) : FloatExec H Unit := do
  if (← view (·.tag i)) = .empty then
    update (·.setCondition Status.c1 false)
    raise p stackExceptions

/-- Raises an exception when there is no room for one more register. -/
def requireRoom (p : Prefixes) : FloatExec H Unit := do
  if (← view (·.tag 7)) ≠ .empty then
    update (·.setCondition Status.c1 true)
    raise p stackExceptions

/-- Pops the top register, if `pops` says so. -/
def popIf (pops : Bool) : FloatExec H Unit := if pops then update Fpu.pop else pure ()

/-! ## Operands -/

/-- Raises an exception for a denormal operand. -/
def checkDenormal (p : Prefixes) (x : Extended) : FloatExec H Unit :=
  if x.isDenormal then raise p Exception.denormal else pure ()

/-- Raises an exception for a denormal operand or a NaN. -/
def checkOperand (p : Prefixes) (x : Extended) (denormal : Bool) : FloatExec H Unit :=
  if denormal || x.isDenormal then raise p Exception.denormal
  else if x.isNan then raise p Exception.invalid
  else pure ()

end FloatExec

end Ia32
