import Ia32.Instr.Far

/-!
# The indirect group

One opcode increments, decrements or pushes an operand, or transfers to the
target in it.  The target of a far transfer is an offset with a selector above
it.
-/

namespace Ia32.Exec

variable {H : Type} [Host H]

/-- Jumps or calls to the offset in an operand. -/
def nearIndirect (p : Prefixes) (w : Width) (transfer : Transfer) (place : Operand) :
    Exec H Unit := do
  checkLock p
  let target ← readOperand w place
  match transfer with
  | .call => callTo w target
  | .jump => jumpTo w target

/-- Reads a far target from an operand. -/
def loadFarTarget (p : Prefixes) (w : Width) (place : Operand) : Exec H FarTarget := do
  let (seg, offset) ← memoryPlace place
  checkLock p
  let target ← load w seg offset
  let selector ← load .word seg (offset + BitVec.ofNat 32 w.bytes)
  return ⟨selector.setWidth 16, target⟩

/-- Jumps or calls to the far target in an operand. -/
def farIndirect (p : Prefixes) (w : Width) (transfer : Transfer) (place : Operand) :
    Exec H Unit := do
  let target ← loadFarTarget p w place
  transferFar transfer w target.selector target.offset

/-- The instruction of the indirect group that a mode byte names. -/
def indirectOperand (p : Prefixes) (w : Width) (m : ModeByte) (place : Operand) : Exec H Unit :=
  match m.reg.toNat with
  | 0 => modifyOperand p w place (increment w)
  | 1 => modifyOperand p w place (decrement w)
  | 2 => nearIndirect p w .call place
  | 3 => farIndirect p w .call place
  | 4 => nearIndirect p w .jump place
  | 5 => farIndirect p w .jump place
  | 6 => pushOperand p w place
  | _ => throw .invalidOpcode

/-- The group of increments, indirect transfers and pushes. -/
def indirectGroup (p : Prefixes) (w : Width) : Exec H Unit := do
  let (m, place) ← fetchOperand p
  indirectOperand p w m place

end Ia32.Exec
