import Ia32.Fpu.Image
import Ia32.Instr.Fpu.Transfer

/-!
# Control of the floating-point unit

Control and status words, the saved image, and waiting for the unit.  The image
has one layout here, that of 32-bit protected mode.
-/

namespace Ia32.Exec

variable {H : Type}

/-- What clearing the exceptions clears: the exceptions, the stack fault and the summary
bits. -/
def clearedExceptions : Word :=
  Status.exceptions ||| Status.stackFault ||| Status.summary ||| Status.busy

/-- Clears the exceptions. -/
def clearExceptions (p : Prefixes) : Exec H Unit := do
  checkAvailable p
  updateFpu (·.setCondition clearedExceptions false)

/-- Initializes the unit. -/
def initState (p : Prefixes) : Exec H Unit := do
  checkAvailable p
  updateFpu Fpu.reinitialize

/-- Copies the status word to the accumulator. -/
def statusToAccumulator (p : Prefixes) : Exec H Unit := do
  checkAvailable p
  update fun s => s.setReg .word Reg.eax (s.fpu.statusWord.setWidth 32)

/-- Waits for the unit. -/
def wait (p : Prefixes) : Exec H Unit := do
  checkLock p
  let bits := Control.monitor ||| Control.taskSwitched
  if (← view (·.cr0)) &&& bits = bits then throw .deviceNotAvailable
  if ← view (·.fpu.isPending) then throw (.unimplemented .pendingException)

variable [Host H]

/-- The place of an operand in memory. -/
def memoryOperand (p : Prefixes) (m : ModeByte) : Exec H (Seg × Dword) := do
  memoryPlace (← operand p m)

/-- Loads the control word.  An exception that is no longer masked becomes pending. -/
def loadControl (p : Prefixes) (m : ModeByte) : Exec H Unit := do
  checkReady p
  let (seg, offset) ← memoryOperand p m
  let word ← load .word seg offset
  updateFpu fun f => { f with control := word.setWidth 16 }.summarize

/-- Stores a word of the unit. -/
def storeWord (p : Prefixes) (m : ModeByte) (word : Fpu → Word) : Exec H Unit := do
  checkAvailable p
  let (seg, offset) ← memoryOperand p m
  store .word seg offset ((← view fun s => word s.fpu).setWidth 32)

/-- Refuses all layouts of the image but one. -/
def checkLayout (p : Prefixes) (feature : Feature) : Exec H Unit := do
  if !(← view fun s => s.usesDescriptors && p.operand32 s) then throw (.unimplemented feature)

/-- Saves the state and reinitializes the unit.  The opcode of the last instruction stays. -/
def saveState (p : Prefixes) (m : ModeByte) : Exec H Unit := do
  checkAvailable p
  let (seg, offset) ← memoryOperand p m
  checkLayout p .fsaveLayout
  storeBytes seg offset (← view (·.fpu.saveImage))
  updateFpu fun f => { f.reinitialize with opcode := f.opcode }

/-- Restores a saved state. -/
def restoreState (p : Prefixes) (m : ModeByte) : Exec H Unit := do
  checkReady p
  let (seg, offset) ← memoryOperand p m
  checkLayout p .frstorLayout
  let image ← loadBytes seg offset Fpu.imageSize
  updateFpu fun _ => Fpu.loadImage image

end Ia32.Exec
