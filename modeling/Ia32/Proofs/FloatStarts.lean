import Ia32.Proofs.UnitPrograms

/-!
# Starting floating-point instructions

What a step does with an instruction of the unit is fixed before it begins: by the
instruction and by its operand in memory, if it has one (`FloatStart`).  An
instruction that waits for the unit first clears condition one and then runs a
program on the register stack (`FloatInstruction.program`).  When the unit is ready
the step is completed and does what that program does, stopped or not
(`Machine.Ready.exists_step`).
-/

namespace Ia32

open Host Exec

variable {H : Type}

/-! ## Operands -/

/-- What an instruction of the unit has in memory. -/
inductive FloatOperand where
  /-- Nothing. -/
  | none
  /-- A number, which was read. -/
  | number (loaded : FloatExec.Loaded)
  /-- A place for a number. -/
  | place (seg : Seg) (offset : Dword)
deriving DecidableEq, Repr

section Operands

variable [Host H]

/-- Takes the operand of an instruction of the unit. -/
def Exec.takeOperand (p : Prefixes) (mode : ModeByte) : FloatInstruction → Exec H FloatOperand
  | .arithMemory _ format | .compareMemory format _ | .load format => do
    let (seg, offset) ← memoryOperand p mode
    return .number (← FloatExec.readNumber seg offset format)
  | .storeReal _ _ | .storeInt _ _ | .storeDecimal => do
    let (seg, offset) ← memoryOperand p mode
    return .place seg offset
  | _ => return .none

/-- An operand is of the kind that an instruction takes: a number that was read, a place for one,
or nothing. -/
def FloatInstruction.Takes (operand : FloatOperand) : FloatInstruction → Prop
  | .arithMemory _ _ | .compareMemory _ _ | .load _ => ∃ loaded, operand = .number loaded
  | .storeReal _ _ | .storeInt _ _ | .storeDecimal => ∃ seg offset, operand = .place seg offset
  | _ => operand = .none

/-- What an instruction that waits for the unit does on the register stack. -/
def FloatInstruction.program (p : Prefixes) : FloatInstruction → FloatOperand → FloatExec H Unit
  | .arithMemory op _, .number loaded => FloatExec.arithLoaded p op loaded
  | .arithTop op i, _ => FloatExec.arithTop p op i
  | .arithInto op i pops, _ => FloatExec.arithInto p op i pops
  | .compareMemory _ pops, .number loaded => FloatExec.compareLoaded p loaded pops
  | .compare i pops, _ => FloatExec.compare p i pops
  | .test, _ => FloatExec.test p
  | .examine, _ => FloatExec.examine
  | .neg, _ => FloatExec.mapTop p Extended.neg
  | .abs, _ => FloatExec.mapTop p Extended.abs
  | .sqrt, _ => FloatExec.sqrt p
  | .roundToIntegral, _ => FloatExec.roundToIntegral p
  | .scale, _ => FloatExec.scale p
  | .remainder, _ => FloatExec.remainder p
  | .powerLessOne, _ => FloatExec.powerLessOne p
  | .trig f, _ => FloatExec.trig p f
  | .timesLogarithm, _ => FloatExec.combine p Extended.timesLogarithm
  | .angle, _ => FloatExec.combine p Extended.angle
  | .load format, .number loaded => FloatExec.load p format loaded
  | .loadRegister i, _ => FloatExec.loadRegister p i
  | .loadConstant c, _ => FloatExec.loadConstant p c
  | .storeReal format pops, .place seg offset => FloatExec.storeReal p seg offset format pops
  | .storeInt format pops, .place seg offset => FloatExec.storeInt p seg offset format pops
  | .storeDecimal, .place seg offset => FloatExec.storeDecimal p seg offset
  | .storeRegister i pops, _ => FloatExec.storeRegister p i pops
  | .exchange i, _ => FloatExec.exchange p i
  | .free i, _ => FloatExec.update (·.setTag i .empty)
  | _, _ => pure ()

/-- An instruction that waits for the unit takes its operand and runs its program. -/
theorem Exec.runFloat_eq_program (p : Prefixes) (mode : ModeByte) {i : FloatInstruction}
    (hi : i.isControl = false) :
    (runFloat p mode i : Exec H Unit) =
      (do
        checkReady p
        let operand ← takeOperand p mode i
        (i.program p operand).toExec) := by
  cases i with
  | loadControl | storeControl | storeStatus | statusToAccumulator | save | restore | initState
  | clearExceptions => cases hi
  | arithMemory | compareMemory | load =>
    simp only [runFloat, withNumber, takeOperand, bind_assoc, pure_bind, FloatInstruction.program]
  | storeReal | storeInt | storeDecimal =>
    simp only [runFloat, withPlace, takeOperand, bind_assoc, pure_bind, FloatInstruction.program]
  | nothing =>
    exact (bind_pure_unit (x := (checkReady p : Exec H Unit))).symm
  | _ => rfl

/-! Where an operand is and what is read there does not depend on the unit. -/

namespace Exec

instance note_ignoresUnit {category : Log.Category} {level : Log.Level} {message : String} :
    IgnoresUnit (note category level fun _ => message : Exec H Unit) := ⟨fun _ _ => rfl⟩

instance checkAccess_ignoresUnit (cache : SegmentCache) (onStack : Bool) (offset : Dword)
    (len : Nat) (access : Access) :
    IgnoresUnit (checkAccess cache onStack offset len access : Exec H Dword) := by
  have hmode : IgnoresUnit (Exec.view (·.usesDescriptors) : Exec H Bool) := .view fun _ _ => rfl
  have hbounds : IgnoresUnit (do
      if !cache.contains offset len then
        note .memory .debug fun _ => boundsMessage cache offset len
        throw (if onStack then .stackFault 0 else .generalProtection 0)
      return cache.base + offset : Exec H Dword) := by
    dsimp only
    infer_instance
  unfold checkAccess
  dsimp only at hbounds ⊢
  refine @IgnoresUnit.bind _ _ _ _ _ hmode fun _ => ?_
  split
  · split <;> infer_instance
  · exact hbounds

instance readLinear_ignoresUnit (linear : Dword) (n : Nat) :
    IgnoresUnit (readLinear linear n : Exec H (List Byte)) := by
  constructor
  intro m f
  change (match hostBytes m.host linear n with
      | .ok bytes => pure bytes
      | .error fault => throw fault : Exec H (List Byte)) { m with fpu := f } =
    endWithUnit f ((match hostBytes m.host linear n with
      | .ok bytes => pure bytes
      | .error fault => throw fault : Exec H (List Byte)) m)
  cases hostBytes m.host linear n <;> rfl

instance loadBytes_ignoresUnit (seg : Seg) (offset : Dword) (n : Nat) :
    IgnoresUnit (loadBytes seg offset n : Exec H (List Byte)) := by
  have hcache : IgnoresUnit (Exec.view (·.segs.get seg) : Exec H SegmentCache) :=
    .view fun _ _ => rfl
  unfold loadBytes linearOf
  infer_instance

instance takeOperand_ignoresUnit (p : Prefixes) (mode : ModeByte) (i : FloatInstruction) :
    IgnoresUnit (takeOperand p mode i : Exec H FloatOperand) := by
  have hread (seg : Seg) (offset : Dword) (format : NumberFormat) :
      IgnoresUnit (FloatExec.readNumber seg offset format : Exec H FloatExec.Loaded) := by
    unfold FloatExec.readNumber
    infer_instance
  unfold takeOperand
  split <;> infer_instance

theorem takes_of_takeOperand {p : Prefixes} {mode : ModeByte} {i : FloatInstruction}
    {operand : FloatOperand} {m m₁ : Machine H}
    (hr : (takeOperand p mode i).run m = .ok operand m₁) : i.Takes operand := by
  cases i with
  | arithMemory | compareMemory | load =>
    obtain ⟨_, _, -, hr⟩ := run_bind_eq_ok_iff.1 hr
    obtain ⟨loaded, _, -, hr⟩ := run_bind_eq_ok_iff.1 hr
    cases hr
    exact ⟨loaded, rfl⟩
  | storeReal | storeInt | storeDecimal =>
    obtain ⟨place, _, -, hr⟩ := run_bind_eq_ok_iff.1 hr
    cases hr
    exact ⟨place.1, place.2, rfl⟩
  | _ =>
    cases hr
    rfl

/-- Taking an operand moves nothing but the instruction pointer and the log. -/
theorem moved_of_takeOperand {p : Prefixes} {mode : ModeByte} {i : FloatInstruction}
    {operand : FloatOperand} {m m₁ : Machine H}
    (hr : (takeOperand p mode i).run m = .ok operand m₁) :
    ∃ eip log, m₁ = { m with eip := eip, log := log } := by
  have hread (seg : Seg) (offset : Dword) (format : NumberFormat) :
      Observes (FloatExec.readNumber seg offset format : Exec H FloatExec.Loaded) :=
    .bind (loadBytes_observes seg offset format.bytes) fun _ => .pure _
  unfold takeOperand at hr
  split at hr
  case h_7 => cases hr; exact ⟨_, _, rfl⟩
  all_goals
    rw [run_bind_eq_ok_iff] at hr
    obtain ⟨place, m₂, hplace, hr⟩ := hr
    obtain ⟨eip, log, rfl⟩ := moved_of_memoryOperand hplace
  case h_4 | h_5 | h_6 => cases hr; exact ⟨_, _, rfl⟩
  all_goals
    rw [run_bind_eq_ok_iff] at hr
    obtain ⟨loaded, m₃, hloaded, hr⟩ := hr
    obtain rfl := (hread _ _ _ _).of_ok hloaded
    cases hr
    exact ⟨_, _, rfl⟩

end Exec

end Operands

/-! ## Starts -/

/-- An instruction of the unit at the point where it begins. -/
structure FloatStart where
  /-- The markers before it. -/
  markers : Prefixes
  /-- The number of the escape opcode. -/
  number : BitVec 3
  /-- The mode byte. -/
  mode : ModeByte
  /-- The instruction. -/
  instruction : FloatInstruction
  /-- The operand in memory. -/
  operand : FloatOperand
deriving DecidableEq, Repr

/-- What the instruction does on the register stack. -/
def FloatStart.program [Host H] (start : FloatStart) : FloatExec H Unit :=
  start.instruction.program start.markers start.operand

variable [Host H] {m m₁ m₂ m₃ : Machine H} {start : FloatStart}

/-- Takes an instruction of the unit from the code, and its operand.  The answer is none for
another instruction. -/
def Exec.fetchFloatStart : Exec H (Option FloatStart) := do
  match ← fetchInstruction with
  | some ⟨p, .ok (.escape number)⟩ =>
    let mode := ModeByte.ofByte (← fetch8)
    match FloatInstruction.decode number mode with
    | .ok instruction =>
      return some ⟨p, number, mode, instruction, ← takeOperand p mode instruction⟩
    | .error _ => return none
  | _ => return none

/-- The instruction of the unit at the instruction pointer, with its operand. -/
def Machine.floatStart? (m : Machine H) : Option FloatStart := (value? fetchFloatStart m).join

/-- A machine takes an instruction of the unit from the code, up to the byte after the opcode, and
then its operand. -/
structure Machine.Starts (m : Machine H) (start : FloatStart) (b : Byte) (m₁ m₂ m₃ : Machine H) :
    Prop where
  fetches : m.Fetches start.markers (.escape start.number) m₁
  byte : fetch8.run m₁ = .ok b m₂
  mode : start.mode = .ofByte b
  decodes : FloatInstruction.decode start.number start.mode = .ok start.instruction
  operand : (takeOperand start.markers start.mode start.instruction).run m₂ = .ok start.operand m₃
  moved : ∃ eip log, m₂ = { m with eip := eip, log := log }
  moved' : ∃ eip log, m₃ = { m with eip := eip, log := log }

theorem Machine.exists_starts (h : m.floatStart? = some start) :
    ∃ b m₁ m₂ m₃, m.Starts start b m₁ m₂ m₃ := by
  obtain ⟨m', hrun⟩ := value?_eq_some_iff.1 (Option.join_eq_some_iff.1 h)
  rw [fetchFloatStart, run_bind_eq_ok_iff] at hrun
  obtain ⟨decoded, m₁, hfetch, hrun⟩ := hrun
  obtain ⟨eip, log, rfl⟩ := (fetchInstruction_moves m).of_ok hfetch
  split at hrun
  next p number =>
    rw [run_bind_eq_ok_iff] at hrun
    obtain ⟨b, m₂, hbyte, hrun⟩ := hrun
    obtain ⟨eip', log', rfl⟩ := fetch8_hasEffect.moved rfl hbyte
    dsimp only at hrun
    split at hrun
    next i hdecode =>
      rw [run_bind_eq_ok_iff] at hrun
      obtain ⟨operand, m₃, hoperand, hrun⟩ := hrun
      obtain ⟨eip'', log'', rfl⟩ := moved_of_takeOperand hoperand
      cases hrun
      exact ⟨b, _, _, _, ⟨hfetch, _, _, rfl⟩, hbyte, rfl, hdecode, hoperand, ⟨_, _, rfl⟩, _, _, rfl⟩
    next => cases hrun
  next => cases hrun

/-! ## Steps -/

/-- An instruction that waits for the unit is about to run, and the unit is ready for it. -/
structure Machine.Ready (m : Machine H) (start : FloatStart) : Prop where
  /-- The instruction and its operand can be taken from the code and from memory. -/
  starts : m.floatStart? = some start
  waits : start.instruction.isControl = false
  unlocked : start.markers.lock = false
  available : m.cr0 &&& (Control.emulation ||| Control.taskSwitched) = 0
  idle : m.fpu.isPending = false

/-- An instruction of the unit begins with condition one clear. -/
def Fpu.readied (f : Fpu) : Fpu := f.setCondition Status.c1 false

omit [Host H] in
theorem Fpu.sameStack_readied (f : Fpu) : f.SameStack f.readied :=
  f.sameStack_setCondition Status.c1 false

namespace Machine.Ready

theorem takes (h : m.Ready start) : start.instruction.Takes start.operand := by
  obtain ⟨_, _, _, _, hs⟩ := exists_starts h.starts
  exact takes_of_takeOperand hs.operand

/-- The step is completed with what the program has done, and the unit remembers it. -/
theorem exists_step (h : m.Ready start) : ∃ eip log, ∀ a? (m' : Machine H),
    EStateM.run (start.program : FloatExec H Unit).run
      { m with eip := eip, log := log, fpu := m.fpu.readied } = .ok a? m' →
    ∃ offset selector opcode, m.step = (.completed,
      { m' with fpu := m'.fpu.remembering offset selector opcode, retired := m'.retired + 1 }) := by
  obtain ⟨b, m₁, m₂, m₃, hs⟩ := exists_starts h.starts
  obtain ⟨eip, log, rfl⟩ := hs.moved
  obtain ⟨eip', log', rfl⟩ := hs.moved'
  refine ⟨eip', log', fun a? m' hprogram => ?_⟩
  have hready : (checkReady start.markers).run { m with eip := eip, log := log } =
      .ok () { m with eip := eip, log := log, fpu := m.fpu.readied } :=
    checkReady_run h.unlocked h.available h.idle
  have hoperand : (takeOperand start.markers start.mode start.instruction).run
      { m with eip := eip, log := log, fpu := m.fpu.readied } =
        .ok start.operand { m with eip := eip', log := log', fpu := m.fpu.readied } := by
    have hignores := (takeOperand_ignoresUnit start.markers start.mode start.instruction).run_unit
      { m with eip := eip, log := log } m.fpu.readied
    have hrun : takeOperand start.markers start.mode start.instruction
        { m with eip := eip, log := log } = _ := hs.operand
    rw [hrun] at hignores
    exact hignores
  have hrun : (runFloat start.markers start.mode start.instruction).run
      { m with eip := eip, log := log } = .ok () m' := by
    rw [runFloat_eq_program _ _ h.waits, run_bind_of_ok hready, run_bind_of_ok hoperand]
    exact run_bind_of_ok hprogram _
  have hescape : (escape start.markers start.number).run m₁ = .ok () { m' with
      fpu := m'.fpu.remembering start.markers.start m'.segs.cs.selector
        ((start.number ++ start.mode.toByte).setWidth 16) } := by
    rw [escape, run_bind_of_ok hs.byte]
    dsimp only
    rw [← hs.mode, hs.decodes]
    dsimp only
    rw [run_bind_of_ok hrun, h.waits]
    rfl
  exact ⟨start.markers.start, m'.segs.cs.selector, _, step_of_run hs.fetches hescape⟩

/-- A step whose instruction works on the unit alone changes nothing else but the instruction
pointer, the log and the count of instructions. -/
theorem step_of_leaves (h : m.Ready start) {ok : Unit → Fpu → Prop} {stop : Fpu → Prop}
    (hx : (start.program : FloatExec H Unit).Leaves m.config m.fpu.readied ok stop) :
    ∃ eip log f offset selector opcode, m.step = (.completed, { m with
      eip := eip
      log := log
      fpu := Fpu.remembering f offset selector opcode
      retired := m.retired + 1 }) ∧ (ok () f ∨ stop f) := by
  obtain ⟨eip, log, hstep⟩ := h.exists_step
  obtain ⟨f, log', ⟨_, hrun, hok⟩ | ⟨hrun, hstop⟩⟩ :=
    hx { m with eip := eip, log := log, fpu := m.fpu.readied } rfl rfl
  · obtain ⟨offset, selector, opcode, hs⟩ := hstep _ _ hrun
    exact ⟨eip, log', f, offset, selector, opcode, hs, .inl hok⟩
  · obtain ⟨offset, selector, opcode, hs⟩ := hstep _ _ hrun
    exact ⟨eip, log', f, offset, selector, opcode, hs, .inr hstop⟩

end Machine.Ready

/-- A machine in real mode with some code at offset zero, and with a state of the unit. -/
def Machine.running (code : Array UInt8) (f : Fpu) : Machine Ram :=
  let m := Machine.initial ⟨⟨code⟩, none, 0, #[]⟩ {}
  { m with
    eip := 0
    segs := { Segments.initial with cs := .realMode 0 false }
    fpu := f }

end Ia32
