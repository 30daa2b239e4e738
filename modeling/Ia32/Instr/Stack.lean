import Ia32.Exec.Operand

/-!
# Pushes and pops

Single values, and all eight registers at once.  The stack pointer moves only
when the whole instruction succeeds.
-/

namespace Ia32.Exec

variable {H : Type} [Host H]

/-! ## Single values -/

/-- Pushes a register.  The stack pointer is pushed as it was before. -/
def pushRegister (p : Prefixes) (w : Width) (r : Reg) : Exec H Unit := do
  checkLock p
  push w (← view (·.reg w r))

/-- Pops into a register. -/
def popRegister (p : Prefixes) (w : Width) (r : Reg) : Exec H Unit := do
  checkLock p
  let value ← pop w
  update (·.setReg w r value)

/-- Pushes an immediate. -/
def pushImmediate (p : Prefixes) (w : Width) (short : Bool) : Exec H Unit := do
  let value ← fetchImmediate w short
  checkLock p
  push w value

/-- Pushes an operand. -/
def pushOperand (p : Prefixes) (w : Width) (place : Operand) : Exec H Unit := do
  checkLock p
  push w (← readOperand w place)

/-- Restores the stack pointer when a program faults. -/
def keepingStack {α : Type} (action : Exec H α) : Exec H α := do
  let esp ← view (·.reg .dword Reg.esp)
  try action catch fault =>
    update (·.setReg .dword Reg.esp esp)
    throw fault

/-- Pops into an operand.  The address of the operand is formed with the stack pointer after
the pop. -/
def popOperand (p : Prefixes) (w : Width) : Exec H Unit := do
  let m := ModeByte.ofByte (← fetch8)
  if m.reg ≠ 0 then throw .invalidOpcode
  checkLock p
  keepingStack do
    let value ← pop w
    let place ← operand p m
    writeOperand w place value

/-! ## All registers -/

/-- Pushes values one after the other. -/
def pushEach (w : Width) : List Dword → Exec H Unit
  | [] => pure ()
  | value :: rest => do
    push w value
    pushEach w rest

/-- Pushes all registers, as they were before, in the order of their numbers. -/
def pushAll (p : Prefixes) (w : Width) : Exec H Unit := do
  checkLock p
  let values ← view fun s => (List.finRange 8).map (s.reg w)
  keepingStack (pushEach w values)

/-- Reads `count` values of the stack, from value number `index` on. -/
def stackValues (w : Width) : (count index : Nat) → Exec H (List Dword)
  | 0, _ => return []
  | count + 1, index => do
    let value ← load w .ss (← view (·.spPlus (BitVec.ofNat 32 (index * w.bytes))))
    let rest ← stackValues w count (index + 1)
    return value :: rest

/-- Writes registers in the order of their numbers downward, all but the stack pointer. -/
def writeDownward (w : Width) (values : List Dword) (s : Processor) : Processor :=
  ((List.finRange 8).reverse.zip values).foldl
    (fun s (r, value) => if r = Reg.esp then s else s.setReg w r value) s

/-- Pops all registers.  The value of the stack pointer is skipped. -/
def popAll (p : Prefixes) (w : Width) : Exec H Unit := do
  checkLock p
  let values ← stackValues w 8 0
  update fun s =>
    let s := writeDownward w values s
    s.setSp (s.spPlus (BitVec.ofNat 32 (8 * w.bytes)))

end Ia32.Exec
