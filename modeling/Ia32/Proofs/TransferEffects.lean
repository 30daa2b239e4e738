import Ia32.Instr.Indirect
import Ia32.Instr.Ports
import Ia32.Proofs.ArithEffects

/-!
# Effects of stack, string, jump and port instructions

The stack pointer moves only when a whole instruction succeeds.  Two instructions
leave something behind when they fault late: the push of all registers may have
stored some of them, and a loop has counted down.
-/

namespace Ia32.Exec

open Host

variable {H : Type} [Host H]

/-! ## Pushes and pops -/

/-- The value is taken before the stack pointer moves, also when it is the stack pointer. -/
theorem pushRegister_hasEffect (p : Prefixes) (w : Width) (r : Reg) :
    HasEffect ⟨[.memory, .stackPointer], some [.tornMemory], some []⟩
      (pushRegister p w r : Exec H Unit) := by
  refine .andThen (checkLock_hasEffect p) fun _ => .skip (.view _) fun value => ?_
  exact (push_hasEffect w value).weaken (by decide)

/-- The register is written after the pop, so that a pop of the stack pointer wins. -/
theorem popRegister_hasEffect (p : Prefixes) (w : Width) (r : Reg) :
    HasEffect ⟨[.stackPointer, .registers], some [], some []⟩
      (popRegister p w r : Exec H Unit) := by
  refine .andThen (checkLock_hasEffect p) fun _ => ?_
  exact .bind (pop_hasEffect w) (fun value => setReg_hasEffect w r value) (by decide)

theorem pushImmediate_hasEffect (p : Prefixes) (w : Width) (short : Bool) :
    HasEffect ⟨[.memory, .stackPointer], some [.tornMemory], some []⟩
      (pushImmediate p w short : Exec H Unit) := by
  refine .andThen (fetchImmediate_hasEffect w short) fun value => ?_
  refine .andThen (checkLock_hasEffect p) fun _ => ?_
  exact (push_hasEffect w value).weaken (by decide)

/-- An operand is read before it is pushed. -/
theorem pushOperand_hasEffect (p : Prefixes) (w : Width) (place : Operand) :
    HasEffect ⟨[.memory, .stackPointer], some [.tornMemory], some []⟩
      (pushOperand p w place : Exec H Unit) := by
  refine .andThen (checkLock_hasEffect p) fun _ => ?_
  refine .andThen (readOperand_observes w place).hasEffect fun value => ?_
  exact (push_hasEffect w value).weaken (by decide)

end Ia32.Exec

namespace Ia32

/-! ## Restoring the stack pointer -/

/-- A footprint without the stack pointer. -/
def Footprint.keepingStack (S : Footprint) : Footprint := S.filter (· ≠ .stackPointer)

/-- When the stack pointer is put back it leaves the footprint. -/
theorem Agree.keepingStack {H : Type} [Host H] {permits : H → Dword → List Byte → Prop}
    {S : Footprint} {m m' : Machine H} (h : Agree permits S m m') :
    Agree permits S.keepingStack m
      { m' with toProcessor := m'.toProcessor.setReg .dword Reg.esp (m.regs.get Reg.esp) } := by
  have hmem : ∀ x ≠ Part.stackPointer, x ∈ S → x ∈ S.keepingStack := fun x hx hm => by
    simp [Footprint.keepingStack, hm, hx]
  exact
    { h with
      regs := by
        intro hn r
        left
        by_cases hr : r = Reg.esp
        · subst hr
          exact Vector.getElem_set_self Reg.esp.isLt
        · have hne : Reg.esp.val ≠ r.val := fun h => hr (Fin.ext h.symm)
          rcases h.regs (fun hm => hn (hmem _ (by decide) hm)) r with he | he
          · exact (Vector.getElem_set_ne Reg.esp.isLt r.isLt hne).trans he
          · exact absurd he.2 hr
      flags := fun i hn => h.flags i fun hf =>
        hn (hf.imp (.imp_left (hmem _ (by decide))) (.imp_left (hmem _ (by decide))))
      fpu := h.fpu.imp (hmem _ (by decide)) (.imp_left (.imp_left (hmem _ (by decide))))
      host := h.host.mono
        (fun _ _ _ hp =>
          ⟨hp.1.imp (hmem _ (by decide)) (.imp_left (hmem _ (by decide))), hp.2⟩)
        (hmem _ (by decide)) }

/-- An effect of which a fault leaves the stack pointer. -/
def Effect.keepingStack (e : Effect) : Effect :=
  { e with
    fault := e.fault.map Footprint.keepingStack
    refusal := e.refusal.map Footprint.keepingStack }

namespace Exec

open Host

variable {H : Type} [Host H]

/-- A program that puts the stack pointer back when it faults. -/
theorem keepingStack_hasEffect {α : Type} {e : Effect} {action : Exec H α}
    (ha : HasEffect e action) : HasEffect e.keepingStack (keepingStack action) := by
  intro permits m hc
  simp only [keepingStack, ends_bind, ends_view]
  rw [ends_tryCatch]
  refine (ha hc).mono (fun _ _ h => h) fun f m' h => ?_
  simp only [ends_bind, ends_update, ends_throw]
  constructor
  · obtain ⟨S, hS, hm⟩ := h.fault
    exact ⟨S.keepingStack, by simp [Effect.keepingStack, Option.mem_def.mp hS], hm.keepingStack⟩
  · intro hf ho
    obtain ⟨S, hS, hm⟩ := h.refusal hf ho
    exact ⟨S.keepingStack, by simp [Effect.keepingStack, Option.mem_def.mp hS], hm.keepingStack⟩

/-- The place of the operand is found after the pop, as it may depend on the stack pointer. -/
theorem popOperand_hasEffect (p : Prefixes) (w : Width) :
    HasEffect ⟨[.stackPointer, .registers, .memory], some [.tornMemory], some []⟩
      (popOperand p w : Exec H Unit) := by
  refine .andThen fetch8_hasEffect fun b => ?_
  have ha : HasEffect ⟨[.stackPointer, .registers, .memory], some [.stackPointer, .tornMemory], none⟩
      (do
        let value ← pop w
        let place ← operand p (ModeByte.ofByte b)
        writeOperand w place value : Exec H Unit) := by
    have ho : ∀ value, HasEffect ⟨[.registers, .memory], some [.tornMemory], none⟩ (do
        let place ← operand p (ModeByte.ofByte b)
        writeOperand w place value : Exec H Unit) := fun value =>
      .andThen (operand_hasEffect p _) fun place => writeOperand_hasEffect w place value
    exact .bind (pop_hasEffect w) ho (by decide)
  have hj : HasEffect ⟨[.stackPointer, .registers, .memory], some [.tornMemory], some []⟩ (do
      checkLock p
      keepingStack do
        let value ← pop w
        let place ← operand p (ModeByte.ofByte b)
        writeOperand w place value : Exec H Unit) :=
    .andThen (checkLock_hasEffect p) fun _ =>
      (keepingStack_hasEffect ha).weaken (by decide)
  exact .when .throw (fun _ => hj) hj

/-! ## All registers -/

/-- When a push fails, those before it have stored their values. -/
theorem pushEach_hasEffect (w : Width) (values : List Dword) :
    HasEffect ⟨[.memory, .stackPointer], some [.memory, .stackPointer, .tornMemory], none⟩
      (pushEach w values : Exec H Unit) := by
  induction values with
  | nil => exact .pure _
  | cons value rest ih => exact .bind (push_hasEffect w value) (fun _ => ih) (by decide)

/-- The stack pointer is put back when a push fails, but what was stored stays stored. -/
theorem pushAll_hasEffect (p : Prefixes) (w : Width) :
    HasEffect ⟨[.memory, .stackPointer], some [.memory, .tornMemory], some []⟩
      (pushAll p w : Exec H Unit) := by
  refine .andThen (checkLock_hasEffect p) fun _ => .skip (.view _) fun values => ?_
  exact (keepingStack_hasEffect (pushEach_hasEffect w values)).weaken (by decide)

/-- The values on the stack are all read before a register is written. -/
theorem stackValues_observes (w : Width) (count index : Nat) :
    Observes (stackValues w count index : Exec H (List Dword)) := by
  induction count generalizing index with
  | zero => exact .pure _
  | succ count ih =>
    refine .bind (.view _) fun place => .bind (load_observes w .ss place) fun value => ?_
    exact .bind (ih (index + 1)) fun rest => .pure _

/-- Whatever number of registers is written, only registers are. -/
theorem writeDownward_agree {permits : H → Dword → List Byte → Prop} (w : Width)
    (values : List Dword) (m : Machine H) :
    Agree permits [.registers] m
      { m with toProcessor := writeDownward w values m.toProcessor } := by
  unfold writeDownward
  refine List.foldlRecOn (motive := fun s => Agree permits [.registers] m { m with toProcessor := s })
    _ _ (.refl _ m) fun s h pair _ => ?_
  dsimp only
  split
  · exact h
  · exact h.trans (setReg_agree { m with toProcessor := s } w pair.1 pair.2)

theorem popAll_hasEffect (p : Prefixes) (w : Width) :
    HasEffect ⟨[.registers, .stackPointer], some [], some []⟩ (popAll p w : Exec H Unit) := by
  refine .andThen (checkLock_hasEffect p) fun _ => ?_
  refine .andThen (stackValues_observes w 8 0).hasEffect fun values => ?_
  have hu : HasEffect (.changes [.registers, .stackPointer]) (update fun s =>
      let s := writeDownward w values s
      s.setSp (s.spPlus (BitVec.ofNat 32 (8 * w.bytes))) : Exec H Unit) :=
    .update fun _ m => (writeDownward_agree w values m).append (setSp_agree _ _)
  exact hu.weaken (by decide)

/-! ## Counting and moving -/

/-- The counter is a register. -/
theorem decrementCounter_hasEffect (p : Prefixes) :
    HasEffect (.changes [.registers]) (decrementCounter p : Exec H Dword) :=
  .updateWith fun _ m => setReg_agree m _ Reg.ecx _

theorem advance_hasEffect (p : Prefixes) (r : Reg) (w : Width) :
    HasEffect (.changes [.registers]) (advance p r w : Exec H Unit) :=
  .update fun _ m => setReg_agree m _ r _

/-- To look at the counter changes nothing. -/
theorem isExhausted_hasEffect (p : Prefixes) : HasEffect .silent (isExhausted p : Exec H Bool) :=
  .ite (.skip (.view _) fun _ => .pure _) (.pure _)

/-- An instruction that is repeated counts down and starts again at its own offset. -/
theorem repeatInstruction_hasEffect (p : Prefixes) :
    HasEffect (.changes [.registers]) (repeatInstruction p : Exec H Unit) := by
  refine .ite ?_ (.pure _)
  have hr : ∀ left : Dword, HasEffect .silent (if left ≠ 0 then restart p else pure () : Exec H Unit) :=
    fun _ => .ite (.moveEip _) (.pure _)
  exact .bind (decrementCounter_hasEffect p) hr (by decide)

/-- A comparison is repeated only while the zero flag says so. -/
theorem repeatComparison_hasEffect (p : Prefixes) :
    HasEffect (.changes [.registers]) (repeatComparison p : Exec H Unit) := by
  unfold repeatComparison
  split
  next => exact .pure _
  next mode _ =>
    have hr : ∀ left : Dword, HasEffect .silent (do
        let zero ← view (·.flag Flags.zero)
        if left ≠ 0 && mode.accepts zero then restart p : Exec H Unit) :=
      fun _ => .skip (.view _) fun _ => .ite (.moveEip _) (.pure _)
    exact .bind (decrementCounter_hasEffect p) hr (by decide)

/-! ## String comparisons -/

theorem advanceAndCompare_hasEffect (p : Prefixes) (w : Width) :
    HasEffect (.changes [.registers])
      (do advance p Reg.edi w; repeatComparison p : Exec H Unit) :=
  .bind (advance_hasEffect p Reg.edi w) (fun _ => repeatComparison_hasEffect p) (by decide)

/-- Both elements are read before the flags are set and the index registers advanced, and a
fault of either has changed nothing. -/
theorem compareStrings_hasEffect (p : Prefixes) (w : Width) :
    HasEffect ⟨[.registers, .arithmeticFlags], some [], some []⟩
      (compareStrings p w : Exec H Unit) := by
  refine .andThen (checkLock_hasEffect p) fun _ => ?_
  refine .skip (isExhausted_hasEffect p) fun exhausted => .ite (.pure _) ?_
  refine .skip (.view _) fun source => ?_
  refine .andThen (load_observes w _ source).hasEffect fun a => ?_
  refine .skip (.view _) fun destination => ?_
  refine .andThen (load_observes w .es destination).hasEffect fun b => ?_
  have hm : HasEffect (.changes [.registers]) (do
      advance p Reg.esi w
      advance p Reg.edi w
      repeatComparison p : Exec H Unit) :=
    .bind (advance_hasEffect p Reg.esi w) (fun _ => advanceAndCompare_hasEffect p w) (by decide)
  exact .bind (alu_hasEffect w .cmp a b) (fun _ => hm) (by decide)

/-- The same for a scan. -/
theorem scanString_hasEffect (p : Prefixes) (w : Width) :
    HasEffect ⟨[.registers, .arithmeticFlags], some [], some []⟩
      (scanString p w : Exec H Unit) := by
  refine .andThen (checkLock_hasEffect p) fun _ => ?_
  refine .skip (isExhausted_hasEffect p) fun exhausted => .ite (.pure _) ?_
  refine .skip (.view _) fun destination => ?_
  refine .andThen (load_observes w .es destination).hasEffect fun b => ?_
  refine .skip (.view _) fun a => ?_
  exact .bind (alu_hasEffect w .cmp a b) (fun _ => advanceAndCompare_hasEffect p w) (by decide)

/-! ## Near transfers -/

/-- A target is checked against the limit of the code before anything moves. -/
theorem checkTarget_observes (target : Dword) : Observes (checkTarget target : Exec H Unit) :=
  .bind (.view _) fun _ => .ite (.throw rfl) (.pure _)

theorem goTo_hasEffect {e : Effect} (target : Dword) : HasEffect e (goTo target : Exec H Unit) :=
  .moveEip _

/-- A jump that is checked moves the instruction pointer alone. -/
theorem jumpTo_hasEffect (w : Width) (target : Dword) :
    HasEffect .reads (jumpTo w target : Exec H Unit) :=
  .andThen (checkTarget_observes _).hasEffect fun _ => goTo_hasEffect _

theorem jumpBy_hasEffect (w : Width) (distance : Dword) :
    HasEffect .reads (jumpBy w distance : Exec H Unit) :=
  .skip (.view _) fun _ => jumpTo_hasEffect w _

/-- The target is checked before the return offset is pushed. -/
theorem callTo_hasEffect (w : Width) (target : Dword) :
    HasEffect ⟨[.memory, .stackPointer], some [.tornMemory], none⟩
      (callTo w target : Exec H Unit) := by
  refine .andThen (checkTarget_observes _).hasEffect fun _ => .skip (.view _) fun eip => ?_
  have hg : HasEffect .silent (goTo (w.truncate target) : Exec H Unit) := goTo_hasEffect _
  exact .bind (push_hasEffect w eip) (fun _ => hg) (by decide)

theorem fetchDistance_hasEffect (w : Width) (short : Bool) :
    HasEffect .reads (fetchDistance w short : Exec H Dword) :=
  .ite fetchSigned8_hasEffect ((fetch_hasEffect w).map _)

theorem jump_hasEffect (p : Prefixes) (w : Width) (short : Bool) :
    HasEffect .checks (jump p w short : Exec H Unit) := by
  refine .andThen (checkLock_hasEffect p) fun _ => ?_
  refine .andThen (fetchDistance_hasEffect w short) fun distance => ?_
  exact (jumpBy_hasEffect w distance).weaken (by decide)

/-- The distance is taken from the code whether the jump is taken or not. -/
theorem jumpIf_hasEffect (p : Prefixes) (w : Width) (code : BitVec 4) (short : Bool) :
    HasEffect .checks (jumpIf p w code short : Exec H Unit) := by
  refine .andThen (checkLock_hasEffect p) fun _ => ?_
  refine .andThen (fetchDistance_hasEffect w short) fun distance => ?_
  exact .skip (.view _) fun _ => .ite ((jumpBy_hasEffect w distance).weaken (by decide)) (.pure _)

/-- A call may be refused, as it may have a lock. -/
theorem call_hasEffect (p : Prefixes) (w : Width) :
    HasEffect ⟨[.memory, .stackPointer], some [.tornMemory], some []⟩ (call p w : Exec H Unit) := by
  refine .andThen (fetchDistance_hasEffect w false) fun distance => ?_
  refine .andThen (checkLock_hasEffect p) fun _ => .skip (.view _) fun eip => ?_
  exact (callTo_hasEffect w _).weaken (by decide)

/-- A loop has counted down by the time its target is checked. -/
theorem loop_hasEffect (p : Prefixes) (w : Width) (mode : Option RepeatMode) :
    HasEffect ⟨[.registers], some [.registers], some []⟩ (loop p w mode : Exec H Unit) := by
  refine .andThen fetchSigned8_hasEffect fun distance => ?_
  refine .andThen (checkLock_hasEffect p) fun _ => ?_
  have hr : ∀ left : Dword, HasEffect .reads (do
      let zero ← view (·.flag Flags.zero)
      if left ≠ 0 && mode.all (·.accepts zero) then jumpBy w distance : Exec H Unit) :=
    fun _ => .skip (.view _) fun _ => .ite (jumpBy_hasEffect w distance) (.pure _)
  exact .bind (decrementCounter_hasEffect p) hr (by decide)

/-- The counter is as it was, or one has been taken from it. -/
def CountsDown (p : Prefixes) (s s' : Processor) : Prop :=
  let w := p.addressWidth s
  s'.regs = s.regs ∨ s'.regs = (s.setReg w Reg.ecx (w.truncate (s.reg w Reg.ecx - 1))).regs

/-- A loop that faults leaves the other registers alone. -/
theorem loop_countsDown (p : Prefixes) (w : Width) (mode : Option RepeatMode) (m : Machine H) :
    Ends (loop p w mode) m (fun _ _ => True)
      (fun _ m' => CountsDown p m.toProcessor m'.toProcessor) := by
  have hc : ∀ m : Machine H, CoversSegments (fun _ _ _ => True) m := fun _ _ _ _ _ _ => trivial
  have hregs : ∀ {m m' : Machine H} {f : Fault},
      Effect.reads.Faults (fun _ _ _ => True) m f m' → m'.regs = m.regs := by
    intro m m' f hf
    obtain ⟨S, ⟨⟩, ha⟩ := hf.fault
    obtain ⟨eip, log, rfl⟩ := ha.exists_moved
    rfl
  rw [loop, ends_bind]
  refine (fetchSigned8_hasEffect (hc m)).mono (fun distance m₁ ha => ?_) fun _ _ hf => .inl (hregs hf)
  obtain ⟨eip, log, rfl⟩ := ha.exists_moved
  cases hp : p.lock with
  | true =>
    rw [checkLock, hp]
    exact .inl rfl
  | false =>
    simp only [checkLock, hp, Bool.false_eq_true, if_false, ends_bind, ends_pure, decrementCounter,
      ends_updateWith, ends_view, ends_ite]
    refine ⟨fun _ => ?_, fun _ => trivial⟩
    exact (jumpBy_hasEffect w distance (hc _)).mono (fun _ _ _ => trivial) fun _ _ hf =>
      .inr (hregs hf)

/-- The counter is only looked at. -/
theorem jumpIfCounterZero_hasEffect (p : Prefixes) (w : Width) :
    HasEffect .checks (jumpIfCounterZero p w : Exec H Unit) := by
  refine .andThen fetchSigned8_hasEffect fun distance => ?_
  refine .andThen (checkLock_hasEffect p) fun _ => .skip (.view _) fun count => ?_
  exact .ite ((jumpBy_hasEffect w distance).weaken (by decide)) (.pure _)

/-! ## Near returns -/

theorem release_hasEffect (bytes : Word) :
    HasEffect (.changes [.stackPointer]) (release bytes : Exec H Unit) :=
  .update fun _ m => setSp_agree m _

/-- The return offset is popped after it is checked. -/
theorem returnNear_hasEffect (w : Width) :
    HasEffect ⟨[.stackPointer], some [], none⟩ (returnNear w : Exec H Unit) := by
  refine .skip (.view _) fun sp => ?_
  refine .andThen (load_observes w .ss sp).hasEffect fun target => ?_
  refine .andThen (checkTarget_observes target).hasEffect fun _ => ?_
  have hu : HasEffect (.changes [.stackPointer])
      (update fun s => s.setSp (s.spPlus (BitVec.ofNat 32 w.bytes)) : Exec H Unit) :=
    .update fun _ m => setSp_agree m _
  have hg : HasEffect .silent (goTo target : Exec H Unit) := goTo_hasEffect target
  exact .bind hu (fun _ => hg) (by decide)

theorem fetchReleased_hasEffect : HasEffect .reads (fetchReleased : Exec H Word) :=
  (fetch_hasEffect .word).map _

theorem ret_hasEffect (p : Prefixes) (w : Width) :
    HasEffect ⟨[.stackPointer], some [], some []⟩ (ret p w : Exec H Unit) :=
  .andThen (checkLock_hasEffect p) fun _ => (returnNear_hasEffect w).weaken (by decide)

/-- The bytes are released after the return. -/
theorem retReleasing_hasEffect (p : Prefixes) (w : Width) :
    HasEffect ⟨[.stackPointer], some [], some []⟩ (retReleasing p w : Exec H Unit) := by
  refine .andThen fetchReleased_hasEffect fun bytes => ?_
  refine .andThen (checkLock_hasEffect p) fun _ => ?_
  exact .bind (returnNear_hasEffect w) (fun _ => release_hasEffect bytes) (by decide)

/-- The target is read from the operand. -/
theorem nearIndirect_hasEffect (p : Prefixes) (w : Width) (transfer : Transfer) (place : Operand) :
    HasEffect ⟨[.memory, .stackPointer], some [.tornMemory], some []⟩
      (nearIndirect p w transfer place : Exec H Unit) := by
  refine .andThen (checkLock_hasEffect p) fun _ => ?_
  refine .andThen (readOperand_observes w place).hasEffect fun target => ?_
  cases transfer with
  | call => exact (callTo_hasEffect w target).weaken (by decide)
  | jump => exact (jumpTo_hasEffect w target).weaken (by decide)

/-! ## Ports -/

/-- Every port of an access is checked before the first of them is used. -/
theorem checkPorts_hasEffect (port : Word) (w : Width) :
    HasEffect .reads (checkPorts port w : Exec H Unit) := by
  refine .skip (.view _) fun decides => .ite ?_ (.pure _)
  refine .andThen (ioPermitted_observes port w.bytes).hasEffect fun permitted => ?_
  exact .ite (.skip (.note ..) fun _ => .throwLoud rfl) (.pure _)

/-- A host that is used through its ports. -/
theorem ports_agree {permits : H → Dword → List Byte → Prop} (m : Machine H) {host : H}
    (h : PortUse m.host host) : Agree permits [.ports] m { m with host := host } :=
  .ofHost _ m host (.port (.refl _) (List.mem_singleton_self _) h)

/-- A port that is read may change the host. -/
theorem portRead_hasEffect (w : Width) (port : Word) :
    HasEffect (.changes [.ports]) (portRead w port : Exec H Dword) := by
  intro permits m _
  cases w with
  | byte => exact (ports_agree m (.read8 m.host port)).trans (.moved _ _ m.eip _)
  | word => exact (ports_agree m (.read16 m.host port)).trans (.moved _ _ m.eip _)
  | dword => exact (ports_agree m (.read32 m.host port)).trans (.moved _ _ m.eip _)

/-- So may one that is written. -/
theorem portWrite_hasEffect (w : Width) (port : Word) (value : Dword) :
    HasEffect (.changes [.ports]) (portWrite w port value : Exec H Unit) := by
  refine .skip (.note ..) fun _ permits m _ => ?_
  cases w with
  | byte => exact ports_agree m (.write8 m.host port _)
  | word => exact ports_agree m (.write16 m.host port _)
  | dword => exact ports_agree m (.write32 m.host port value)

/-- The port stands in the code or in a register. -/
theorem portNumber_hasEffect (p : Prefixes) (source : PortSource) :
    HasEffect .checks (portNumber p source : Exec H Word) := by
  cases source with
  | immediate =>
    refine .andThen fetch8_hasEffect fun b => ?_
    exact .andThen (checkLock_hasEffect p) fun _ => .pure _
  | register => exact .andThen (checkLock_hasEffect p) fun _ => .view _

/-- The permission is looked up before the port is read. -/
theorem input_hasEffect (p : Prefixes) (w : Width) (source : PortSource) :
    HasEffect ⟨[.ports, .registers], some [], some []⟩ (input p w source : Exec H Unit) := by
  refine .andThen (portNumber_hasEffect p source) fun port => ?_
  refine .andThen (checkPorts_hasEffect port w) fun _ => ?_
  exact .bind (portRead_hasEffect w port) (fun value => setReg_hasEffect w Reg.eax value)
    (by decide)

theorem output_hasEffect (p : Prefixes) (w : Width) (source : PortSource) :
    HasEffect ⟨[.ports], some [], some []⟩ (output p w source : Exec H Unit) := by
  refine .andThen (portNumber_hasEffect p source) fun port => ?_
  refine .andThen (checkPorts_hasEffect port w) fun _ => .skip (.view _) fun value => ?_
  exact (portWrite_hasEffect w port value).weaken (by decide)

/-- The end of a string instruction: an index register moves on. -/
theorem advanceAndRepeat_hasEffect (p : Prefixes) (r : Reg) (w : Width) :
    HasEffect (.changes [.registers]) (do advance p r w; repeatInstruction p : Exec H Unit) :=
  .bind (advance_hasEffect p r w) (fun _ => repeatInstruction_hasEffect p) (by decide)

/-- The port is read before the store, and a fault of the store does not undo that. -/
theorem inputString_hasEffect (p : Prefixes) (w : Width) :
    HasEffect ⟨[.ports, .memory, .registers], some [.ports, .tornMemory], some []⟩
      (inputString p w : Exec H Unit) := by
  refine .andThen (portNumber_hasEffect p .register) fun port => ?_
  refine .andThen (checkPorts_hasEffect port w) fun _ => ?_
  refine .skip (isExhausted_hasEffect p) fun exhausted => .ite (.pure _) ?_
  refine .skip (.view _) fun offset => .skip (.view _) fun es => ?_
  refine .andThen (checkAccess_observes es false offset w.bytes .write).hasEffect
    fun _ => ?_
  have hs : ∀ value, HasEffect ⟨[.memory, .registers], some [.tornMemory], none⟩ (do
      store w .es offset value
      advance p Reg.edi w
      repeatInstruction p : Exec H Unit) := fun value =>
    .bind (store_hasEffect w .es offset value)
      (fun _ => advanceAndRepeat_hasEffect p Reg.edi w) (by decide)
  exact .bind (portRead_hasEffect w port) hs (by decide)

/-- The element is read before the port is written. -/
theorem outputString_hasEffect (p : Prefixes) (w : Width) :
    HasEffect ⟨[.ports, .registers], some [], some []⟩ (outputString p w : Exec H Unit) := by
  refine .andThen (portNumber_hasEffect p .register) fun port => ?_
  refine .andThen (checkPorts_hasEffect port w) fun _ => ?_
  refine .skip (isExhausted_hasEffect p) fun exhausted => .ite (.pure _) ?_
  refine .skip (.view _) fun source => ?_
  refine .andThen (load_observes w _ source).hasEffect fun value => ?_
  exact .bind (portWrite_hasEffect w port value)
    (fun _ => advanceAndRepeat_hasEffect p Reg.esi w) (by decide)

end Exec

end Ia32
