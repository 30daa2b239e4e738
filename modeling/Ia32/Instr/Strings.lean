import Ia32.Instr.Arith

/-!
# String comparisons

A string instruction works on the places that the index registers point to and
moves the registers on, up or down as the direction flag says.  A repeated
instruction counts down and runs again from its first byte.  With the counter at
zero it does nothing.
-/

namespace Ia32.Exec

variable {H : Type}

/-! ## Counting and moving -/

/-- The counter. -/
def counter (p : Prefixes) : Exec H Dword := view fun s => s.reg (p.addressWidth s) Reg.ecx

/-- Takes one from the counter and gives what is left. -/
def decrementCounter (p : Prefixes) : Exec H Dword :=
  updateWith fun s =>
    let w := p.addressWidth s
    let left := w.truncate (s.reg w Reg.ecx - 1)
    (left, s.setReg w Reg.ecx left)

/-- An index register. -/
def indexRegister (p : Prefixes) (r : Reg) : Exec H Dword :=
  view fun s => s.reg (p.addressWidth s) r

/-- Moves an index register on by one value. -/
def advance (p : Prefixes) (r : Reg) (w : Width) : Exec H Unit :=
  update fun s =>
    let size := BitVec.ofNat 32 w.bytes
    let delta := if s.flag Flags.direction then -size else size
    let a := p.addressWidth s
    s.setReg a r (s.reg a r + delta)

/-- Goes back to the first byte of the instruction. -/
def restart (p : Prefixes) : Exec H Unit := update fun s => { s with eip := p.start }

/-- Whether a repeated instruction has nothing left to do. -/
def isExhausted (p : Prefixes) : Exec H Bool := do
  if p.repeats.isSome then return (← counter p) == 0 else return false

/-- Counts down and runs the instruction again. -/
def repeatInstruction (p : Prefixes) : Exec H Unit := do
  if p.repeats.isSome then
    let left ← decrementCounter p
    if left ≠ 0 then restart p

/-- Counts down and runs the instruction again while the zero flag is as the marker says. -/
def repeatComparison (p : Prefixes) : Exec H Unit := do
  match p.repeats with
  | none => pure ()
  | some mode =>
    let left ← decrementCounter p
    let zero ← view (·.flag Flags.zero)
    if left ≠ 0 && mode.accepts zero then restart p

/-! ## Comparisons -/

variable [Host H]

/-- Compares the places of both index registers. -/
def compareStrings (p : Prefixes) (w : Width) : Exec H Unit := do
  checkLock p
  if ← isExhausted p then return
  let a ← load w (p.dataSegment .ds) (← indexRegister p Reg.esi)
  let b ← load w .es (← indexRegister p Reg.edi)
  let _ ← alu w .cmp a b
  advance p Reg.esi w
  advance p Reg.edi w
  repeatComparison p

/-- Compares the accumulator with the place of the destination index. -/
def scanString (p : Prefixes) (w : Width) : Exec H Unit := do
  checkLock p
  if ← isExhausted p then return
  let b ← load w .es (← indexRegister p Reg.edi)
  let _ ← alu w .cmp (← view (·.reg w Reg.eax)) b
  advance p Reg.edi w
  repeatComparison p

end Ia32.Exec
