import Ia32.Instr.Strings

/-!
# Near transfers

Jumps, calls and returns inside the code segment.  The target is cut to the
width of operands.  It must lie inside the segment, and only then does the
transfer happen.
-/

namespace Ia32.Exec

variable {H : Type}

/-! ## Targets -/

/-- Refuses a target outside the code segment. -/
def checkTarget (target : Dword) : Exec H Unit := do
  if !(← view (·.segs.cs)).contains target 1 then throw (.generalProtection 0)

/-- Goes to an offset. -/
def goTo (target : Dword) : Exec H Unit := update fun s => { s with eip := target }

/-- Jumps to an offset. -/
def jumpTo (w : Width) (target : Dword) : Exec H Unit := do
  checkTarget (w.truncate target)
  goTo (w.truncate target)

/-- Jumps over a distance, counted from the next instruction. -/
def jumpBy (w : Width) (distance : Dword) : Exec H Unit := do
  jumpTo w ((← view (·.eip)) + distance)

variable [Host H]

/-- Calls an offset: pushes the offset of the next instruction and jumps. -/
def callTo (w : Width) (target : Dword) : Exec H Unit := do
  checkTarget (w.truncate target)
  push w (← view (·.eip))
  goTo (w.truncate target)

/-- Takes a distance from the code: a byte or a value of the width, with its sign. -/
def fetchDistance (w : Width) (short : Bool) : Exec H Dword :=
  if short then fetchSigned8 else return w.signExtend (← fetch w)

/-! ## Jumps and calls -/

/-- Jumps. -/
def jump (p : Prefixes) (w : Width) (short : Bool) : Exec H Unit := do
  checkLock p
  jumpBy w (← fetchDistance w short)

/-- Jumps when a condition holds. -/
def jumpIf (p : Prefixes) (w : Width) (code : BitVec 4) (short : Bool) : Exec H Unit := do
  checkLock p
  let distance ← fetchDistance w short
  if ← view fun s => Flags.condition s.eflags code then jumpBy w distance

/-- Calls. -/
def call (p : Prefixes) (w : Width) : Exec H Unit := do
  let distance ← fetchDistance w false
  checkLock p
  callTo w ((← view (·.eip)) + distance)

/-- Counts down and jumps while something is left, and while the zero flag is as `mode` says.
The count stays down when the jump faults. -/
def loop (p : Prefixes) (w : Width) (mode : Option RepeatMode) : Exec H Unit := do
  let distance ← fetchSigned8
  checkLock p
  let left ← decrementCounter p
  let zero ← view (·.flag Flags.zero)
  if left ≠ 0 && mode.all (·.accepts zero) then jumpBy w distance

/-- Jumps when the counter is zero. -/
def jumpIfCounterZero (p : Prefixes) (w : Width) : Exec H Unit := do
  let distance ← fetchSigned8
  checkLock p
  if (← counter p) = 0 then jumpBy w distance

/-! ## Returns -/

/-- Takes a number of bytes off the stack. -/
def release (bytes : Word) : Exec H Unit :=
  update fun s => s.setSp (s.spPlus (bytes.setWidth 32))

/-- Goes to the offset on the stack and takes it off. -/
def returnNear (w : Width) : Exec H Unit := do
  let target ← load w .ss (← view (·.sp))
  checkTarget target
  update fun s => s.setSp (s.spPlus (BitVec.ofNat 32 w.bytes))
  goTo target

/-- Takes the number of bytes that a return releases from the code. -/
def fetchReleased : Exec H Word := return (← fetch .word).setWidth 16

/-- Returns. -/
def ret (p : Prefixes) (w : Width) : Exec H Unit := do
  checkLock p
  returnNear w

/-- Returns and releases as many bytes of the stack as the code says. -/
def retReleasing (p : Prefixes) (w : Width) : Exec H Unit := do
  let bytes ← fetchReleased
  checkLock p
  returnNear w
  release bytes

end Ia32.Exec
