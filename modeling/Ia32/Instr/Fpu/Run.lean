import Ia32.Instr.Fpu.Control

/-!
# Running floating-point instructions

An instruction that computes waits for the unit, finds its operand, and then
works on the register stack.  When it ends, stopped or not, the unit remembers
where it was.
-/

namespace Ia32.Exec

variable {H : Type}

/-- Runs a program of the unit when the unit is ready. -/
def whenReady (p : Prefixes) (action : FloatExec H Unit) : Exec H Unit := do
  checkReady p
  action.toExec

/-- Remembers an instruction of the unit as the last one. -/
def remember (p : Prefixes) (escape : BitVec 3) (m : ModeByte) : Exec H Unit :=
  update fun s =>
    { s with fpu :=
      { s.fpu with
        ipOffset := p.start
        ipSelector := s.segs.cs.selector
        opcode := (escape ++ m.toByte).setWidth 16 } }

variable [Host H]

/-- Runs a program of the unit on a number from memory. -/
def withNumber (p : Prefixes) (m : ModeByte) (format : NumberFormat)
    (action : FloatExec.Loaded → FloatExec H Unit) : Exec H Unit := do
  checkReady p
  let (seg, offset) ← memoryOperand p m
  (action (← FloatExec.readNumber seg offset format)).toExec

/-- Runs a program of the unit on a place in memory. -/
def withPlace (p : Prefixes) (m : ModeByte) (action : Seg → Dword → FloatExec H Unit) :
    Exec H Unit := do
  checkReady p
  let (seg, offset) ← memoryOperand p m
  (action seg offset).toExec

/-- Runs a floating-point instruction. -/
def runFloat (p : Prefixes) (m : ModeByte) : FloatInstruction → Exec H Unit
  | .arithMemory op format => withNumber p m format (FloatExec.arithLoaded p op)
  | .arithTop op i => whenReady p (FloatExec.arithTop p op i)
  | .arithInto op i pops => whenReady p (FloatExec.arithInto p op i pops)
  | .compareMemory format pops =>
    withNumber p m format fun loaded => FloatExec.compareLoaded p loaded pops
  | .compare i pops => whenReady p (FloatExec.compare p i pops)
  | .test => whenReady p (FloatExec.test p)
  | .examine => whenReady p FloatExec.examine
  | .neg => whenReady p (FloatExec.mapTop p Extended.neg)
  | .abs => whenReady p (FloatExec.mapTop p Extended.abs)
  | .sqrt => whenReady p (FloatExec.sqrt p)
  | .roundToIntegral => whenReady p (FloatExec.roundToIntegral p)
  | .scale => whenReady p (FloatExec.scale p)
  | .remainder => whenReady p (FloatExec.remainder p)
  | .powerLessOne => whenReady p (FloatExec.powerLessOne p)
  | .trig f => whenReady p (FloatExec.trig p f)
  | .timesLogarithm => whenReady p (FloatExec.combine p Extended.timesLogarithm)
  | .angle => whenReady p (FloatExec.combine p Extended.angle)
  | .nothing => checkReady p
  | .load format => withNumber p m format (FloatExec.load p format)
  | .loadRegister i => whenReady p (FloatExec.loadRegister p i)
  | .loadConstant c => whenReady p (FloatExec.loadConstant p c)
  | .storeReal format pops =>
    withPlace p m fun seg offset => FloatExec.storeReal p seg offset format pops
  | .storeInt format pops =>
    withPlace p m fun seg offset => FloatExec.storeInt p seg offset format pops
  | .storeDecimal => withPlace p m (FloatExec.storeDecimal p)
  | .storeRegister i pops => whenReady p (FloatExec.storeRegister p i pops)
  | .exchange i => whenReady p (FloatExec.exchange p i)
  | .free i => whenReady p (FloatExec.update (·.setTag i .empty))
  | .loadControl => loadControl p m
  | .storeControl => storeWord p m Fpu.control
  | .storeStatus => storeWord p m Fpu.statusWord
  | .statusToAccumulator => statusToAccumulator p
  | .save => saveState p m
  | .restore => restoreState p m
  | .initState => initState p
  | .clearExceptions => clearExceptions p

/-- Runs the floating-point instruction of an escape opcode. -/
def escape (p : Prefixes) (number : BitVec 3) : Exec H Unit := do
  let m := ModeByte.ofByte (← fetch8)
  match FloatInstruction.decode number m with
  | .error fault => throw fault
  | .ok instruction =>
    runFloat p m instruction
    if !instruction.isControl then remember p number m

end Ia32.Exec
