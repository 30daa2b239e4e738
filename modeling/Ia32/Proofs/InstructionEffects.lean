import Ia32.Proofs.FarTransfers
import Ia32.Proofs.FloatEffects

/-!
# Effects of instructions

Each instruction has an effect.  For most of them one effect is enough: a fault
leaves nothing behind but flags, and a refusal nothing at all.  Loops count down
before they jump, and a push of all registers stores some of them before it
faults.  The instructions that transfer far are the only ones that load segment
registers.
-/

namespace Ia32

open Host Exec

/-! ## The effect of an instruction -/

/-- The effect of an instruction that works on operands, the stack or the flags. -/
def Effect.ordinary : Effect :=
  ⟨[.registers, .stackPointer, .arithmeticFlags, .directionFlag, .memory],
    some [.arithmeticFlags, .tornMemory], some []⟩

/-- The effect of an instruction, as long as it does not transfer far. -/
def Instruction.effect : Instruction → Effect
  | .loop _ => ⟨[.registers], some [.registers], some []⟩
  | .pushAll => ⟨[.memory, .stackPointer], some [.memory, .tornMemory], some []⟩
  | .input _ _ | .output _ _ | .outputString _ => ⟨[.ports, .registers], some [], some []⟩
  | .inputString _ => ⟨[.ports, .memory, .registers], some [.ports, .tornMemory], some []⟩
  | .escape _ => .floatInstruction
  | _ => .ordinary

/-- Whether an instruction may transfer far. -/
def Instruction.mayBeFar : Instruction → Bool
  | .indirectGroup | .far _ | .retFar | .retFarReleasing => true
  | _ => false

/-- Every instruction may check something and refuse. -/
theorem Instruction.checks_within (i : Instruction) : Effect.checks.Within i.effect := by
  unfold effect
  split <;> decide

/-- A refused instruction leaves nothing behind. -/
theorem Instruction.effect_refusal (i : Instruction) : i.effect.refusal = some [] := by
  cases i <;> rfl

namespace Exec

variable {H : Type} [Host H]

theorem widthOf_hasEffect {e : Effect} (p : Prefixes) (size : Size) :
    HasEffect e (widthOf p size : Exec H Width) :=
  match size with
  | .byte => .pure _
  | .full => operandWidth_hasEffect p

/-- The effect of an instruction that never transfers far. -/
theorem runInstruction_hasEffect (p : Prefixes) {i : Instruction} (hn : i.mayBeFar = false) :
    HasEffect i.effect (runInstruction p i : Exec H Unit) := by
  -- An instruction finds out the width of its operands and runs.
  have full : ∀ {e e' : Effect} {run : Width → Exec H Unit}, (∀ w, HasEffect e (run w)) →
      e.Within e' → HasEffect e' (do run (← operandWidth p)) :=
    fun hr hw => .skip (operandWidth_hasEffect p) fun w => (hr w).weaken hw
  have sized : ∀ {e e' : Effect} {run : Width → Exec H Unit} (size : Size),
      (∀ w, HasEffect e (run w)) → e.Within e' → HasEffect e' (do run (← widthOf p size)) :=
    fun size hr hw => .skip (widthOf_hasEffect p size) fun w => (hr w).weaken hw
  cases i with dsimp only [Instruction.effect]
  | aluToOperand size op => exact sized size (aluToOperand_hasEffect p · op) (by decide)
  | aluToRegister size op => exact sized size (aluToRegister_hasEffect p · op) (by decide)
  | aluAccumulator size op => exact sized size (aluAccumulator_hasEffect p · op) (by decide)
  | aluImmediate size short => exact sized size (aluImmediate_hasEffect p · short) (by decide)
  | testRegister size => exact sized size (testRegister_hasEffect p) (by decide)
  | testAccumulator size => exact sized size (testAccumulator_hasEffect p) (by decide)
  | incrementRegister r =>
    exact full (fun w => modifyOperand_hasEffect p w (.register r) (setsArithmetic_increment w))
      (by decide)
  | decrementRegister r =>
    exact full (fun w => modifyOperand_hasEffect p w (.register r) (setsArithmetic_decrement w))
      (by decide)
  | incrementByte => exact (incrementByte_hasEffect p).weaken (by decide)
  | unaryGroup size => exact sized size (unaryGroup_hasEffect p) (by decide)
  | indirectGroup => cases hn
  | multiplyRegister => exact full (multiplyRegister_hasEffect p) (by decide)
  | multiplyImmediate short => exact full (multiplyImmediate_hasEffect p · short) (by decide)
  | setCondition code => exact (setCondition_hasEffect p code).weaken (by decide)
  | changeFlag change => exact (changeFlag_hasEffect p change).weaken (by decide)
  | shiftGroup size count => exact sized size (shiftGroup_hasEffect p · count) (by decide)
  | doubleShift direction count =>
    exact full (doubleShiftOperand_hasEffect p · direction count) (by decide)
  | bitScan order => exact full (bitScan_hasEffect p · order) (by decide)
  | bitByRegister op => exact full (bitByRegister_hasEffect p · op) (by decide)
  | bitByImmediate => exact full (bitByImmediate_hasEffect p) (by decide)
  | swapBytes r => exact (swapBytes_hasEffect p r).weaken (by decide)
  | pushRegister r => exact full (pushRegister_hasEffect p · r) (by decide)
  | popRegister r => exact full (popRegister_hasEffect p · r) (by decide)
  | pushImmediate short => exact full (pushImmediate_hasEffect p · short) (by decide)
  | popOperand => exact full (popOperand_hasEffect p) (by decide)
  | pushAll => exact full (pushAll_hasEffect p) (by decide)
  | popAll => exact full (popAll_hasEffect p) (by decide)
  | compareStrings size => exact sized size (compareStrings_hasEffect p) (by decide)
  | scanString size => exact sized size (scanString_hasEffect p) (by decide)
  | input size port => exact sized size (input_hasEffect p · port) (by decide)
  | output size port => exact sized size (output_hasEffect p · port) (by decide)
  | inputString size => exact sized size (inputString_hasEffect p) (by decide)
  | outputString size => exact sized size (outputString_hasEffect p) (by decide)
  | jump short => exact full (jump_hasEffect p · short) (by decide)
  | jumpIf code short => exact full (jumpIf_hasEffect p · code short) (by decide)
  | loop mode => exact full (loop_hasEffect p · mode) (by decide)
  | jumpIfCounterZero => exact full (jumpIfCounterZero_hasEffect p) (by decide)
  | call => exact full (call_hasEffect p) (by decide)
  | ret => exact full (ret_hasEffect p) (by decide)
  | retReleasing => exact full (retReleasing_hasEffect p) (by decide)
  | far transfer => cases hn
  | retFar => cases hn
  | retFarReleasing => cases hn
  | escape number => exact escape_hasEffect p number
  | wait => exact (wait_hasEffect p).weaken (by decide)

end Exec

/-! ## Ends of an instruction -/

variable {H : Type} [Host H] {permits : H → Dword → List Byte → Prop} {m m' : Machine H}

/-- What an instruction has done when it is completed.  `far?` is the far instruction that it is,
if it is one. -/
inductive Completes (permits : H → Dword → List Byte → Prop) (m : Machine H) (i : Instruction)
    (far? : Option FarInstruction) (m' : Machine H) : Prop where
  | near :
    Agree permits i.effect.answer m m' →
    Completes permits m i far? m'
  | far {far : FarInstruction} :
    far? = some far →
    (m.usesDescriptors = true → CompletesFar permits m far m') →
    Completes permits m i far? m'

/-- What an instruction has done when it faults. -/
inductive Fails (permits : H → Dword → List Byte → Prop) (m : Machine H) (p : Prefixes)
    (i : Instruction) (far? : Option FarInstruction) (f : Fault) (m' : Machine H) : Prop where
  | near :
    i.effect.Faults permits m f m' →
    (∀ mode, i = .loop mode → CountsDown p m.toProcessor m'.toProcessor) →
    Fails permits m p i far? f m'
  | far :
    far?.isSome →
    Effect.transfers.Faults permits m f m' →
    Fails permits m p i far? f m'

theorem Completes.of_moved {i : Instruction} {far? : Option FarInstruction} {eip : Dword}
    {log : Log} (h : Completes permits { m with eip := eip, log := log } i far? m') :
    Completes permits m i far? m' := by
  cases h with
  | near ha => exact .near ((Agree.moved _ m eip log).trans ha)
  | far hf hc => exact .far hf fun hu => (hc hu).of_moved

theorem Fails.of_moved {p : Prefixes} {i : Instruction} {far? : Option FarInstruction} {f : Fault}
    {eip : Dword} {log : Log}
    (h : Fails permits { m with eip := eip, log := log } p i far? f m') :
    Fails permits m p i far? f m' := by
  cases h with
  | near he hc => exact .near (he.of_agree (.moved _ m eip log)) hc
  | far hf he => exact .far hf (he.of_agree (.moved _ m eip log))

namespace Exec

/-- The far instruction that an instruction is, once its operands are taken from the code. -/
def farInstruction? (p : Prefixes) (i : Instruction) (m : Machine H) : Option FarInstruction :=
  (value? (fetchFar p i) m).join

theorem join_value?_some {H α β : Type} (x : Exec H β) (f : β → α) (m : Machine H) :
    (value? (do return some (f (← x))) m).join = (value? x m).map f := by
  rw [value?_map]
  cases value? x m <;> rfl

/-! ## Far instructions -/

theorem fetchFarTarget_hasEffect (p : Prefixes) (w : Width) :
    HasEffect .checks (fetchFarTarget p w : Exec H FarTarget) := by
  refine .andThen (fetch_hasEffect w) fun offset => ?_
  refine .andThen (fetch_hasEffect .word) fun selector => ?_
  exact (checkLock_hasEffect p).map _

theorem loadFarTarget_hasEffect (p : Prefixes) (w : Width) (place : Operand) :
    HasEffect .checks (loadFarTarget p w place : Exec H FarTarget) := by
  refine .andThen (memoryPlace_hasEffect place) fun ⟨seg, offset⟩ => ?_
  refine .andThen (checkLock_hasEffect p) fun _ => ?_
  refine .andThen (load_observes w seg offset).hasEffect fun target => ?_
  exact (load_observes .word seg _).hasEffect.map _ |>.weaken (by decide)

variable {p : Prefixes} {i : Instruction} {far? : Option FarInstruction}

/-- A program that takes the operands of a far instruction and then runs it. -/
theorem runFar_ends {β : Type} {operands : Exec H β} {run : β → Exec H Unit}
    {far : β → FarInstruction} (ho : HasEffect .checks operands) (hc : CoversSegments permits m)
    (hi : ∀ mode, i ≠ .loop mode) (hv : far? = (value? operands m).map far)
    (hp : ∀ {far}, far? = some far → PermitsFar permits m far)
    (hr : ∀ b {m : Machine H}, PermitsFar permits m (far b) → Ends (run b) m
      (fun _ m' => m.usesDescriptors = true → CompletesFar permits m (far b) m')
      (fun f m' => Effect.transfers.Faults permits m f m')) :
    Ends (operands >>= run) m (fun _ m' => Completes permits m i far? m')
      (fun f m' => Fails permits m p i far? f m') := by
  rw [ends_bind]
  refine (ho hc).value.mono (fun b m₁ h₁ => ?_) fun f m' he => ?_
  · obtain ⟨hb, ha⟩ := h₁
    obtain ⟨eip, log, rfl⟩ := ha.exists_moved
    have hfar : far? = some (far b) := by rw [hv, hb]; rfl
    refine (hr b ((hp hfar).moved eip log)).mono (fun _ m' h => ?_) fun f m' h => ?_
    · exact .of_moved (.far hfar h)
    · exact .of_moved (.far (by simp [hfar]) h)
  · exact .near (he.weaken i.checks_within) fun mode h => absurd h (hi mode)

/-- A program with the effect of its instruction. -/
theorem runNear_ends {x : Exec H Unit} (hx : HasEffect i.effect x) (hc : CoversSegments permits m)
    (hi : ∀ mode, i ≠ .loop mode) :
    Ends x m (fun _ m' => Completes permits m i far? m')
      (fun f m' => Fails permits m p i far? f m') :=
  (hx hc).mono (fun _ _ h => .near h) fun _ _ h => .near h fun mode h => absurd h (hi mode)

theorem indirectOperand_ends (hc : CoversSegments permits m) (w : Width) (mb : ModeByte)
    (place : Operand) (hv : far? = (value? (fetchIndirectFar p w mb place) m).join)
    (hp : ∀ {far}, far? = some far → PermitsFar permits m far) :
    Ends (indirectOperand p w mb place) m
      (fun _ m' => Completes permits m .indirectGroup far? m')
      (fun f m' => Fails permits m p .indirectGroup far? f m') := by
  have near : ∀ {e : Effect} {x : Exec H Unit}, HasEffect e x → e.Within .ordinary →
      Ends x m (fun _ m' => Completes permits m .indirectGroup far? m')
        (fun f m' => Fails permits m p .indirectGroup far? f m') :=
    fun hx hw => runNear_ends (hx.weaken hw) hc nofun
  have far : ∀ transfer, far? = (value? (loadFarTarget p w place) m).map (.transfer transfer w) →
      Ends (farIndirect p w transfer place) m
        (fun _ m' => Completes permits m .indirectGroup far? m')
        (fun f m' => Fails permits m p .indirectGroup far? f m') :=
    fun transfer hv => runFar_ends (loadFarTarget_hasEffect p w place) hc nofun hv hp
      fun dest _ hp => transferFar_ends hp
  unfold indirectOperand
  unfold fetchIndirectFar at hv
  match hr : mb.reg.toNat with
  | 0 => exact near (modifyOperand_hasEffect p w place (setsArithmetic_increment w)) (by decide)
  | 1 => exact near (modifyOperand_hasEffect p w place (setsArithmetic_decrement w)) (by decide)
  | 2 => exact near (nearIndirect_hasEffect p w .call place) (by decide)
  | 3 => exact far .call (by simpa only [hr, join_value?_some] using hv)
  | 4 => exact near (nearIndirect_hasEffect p w .jump place) (by decide)
  | 5 => exact far .jump (by simpa only [hr, join_value?_some] using hv)
  | 6 => exact near (pushOperand_hasEffect p w place) (by decide)
  | n + 7 => exact near HasEffect.throw (by decide)

theorem indirectGroup_ends (hc : CoversSegments permits m) (w : Width)
    (hv : far? = (value? (do
      let (mb, place) ← fetchOperand p
      fetchIndirectFar p w mb place) m).join)
    (hp : ∀ {far}, far? = some far → PermitsFar permits m far) :
    Ends (indirectGroup p w) m (fun _ m' => Completes permits m .indirectGroup far? m')
      (fun f m' => Fails permits m p .indirectGroup far? f m') := by
  rw [indirectGroup, ends_bind]
  refine ((fetchOperand_hasEffect p hc).follow fun (mb, place) => fetchIndirectFar p w mb place).mono
    (fun (mb, place) m₁ h₁ => ?_) fun f m' he => .near (he.weaken (by decide)) nofun
  obtain ⟨hfollow, ha⟩ := h₁
  obtain ⟨eip, log, rfl⟩ := ha.exists_moved
  exact (indirectOperand_ends (hc.of_agree ha) w mb place (hv.trans (congrArg Option.join hfollow))
    fun hfar => (hp hfar).moved eip log).mono (fun _ _ h => h.of_moved) fun _ _ h => h.of_moved

theorem loop_ends (hc : CoversSegments permits m) (w : Width) (mode : Option RepeatMode) :
    Ends (loop p w mode) m (fun _ m' => Completes permits m (.loop mode) far? m')
      (fun f m' => Fails permits m p (.loop mode) far? f m') :=
  ((loop_hasEffect p w mode hc).and (loop_countsDown p w mode m)).mono (fun _ _ h => .near h.1)
    fun _ _ h => .near h.1 fun _ _ => h.2

theorem retFarReleasing_ends (hc : CoversSegments permits m) (w : Width)
    (hv : far? = (value? (do
      let bytes ← fetchReleased
      checkLock p
      return some (.ret w bytes)) m).join)
    (hp : ∀ {far}, far? = some far → PermitsFar permits m far) :
    Ends (retFarReleasing p w) m (fun _ m' => Completes permits m .retFarReleasing far? m')
      (fun f m' => Fails permits m p .retFarReleasing far? f m') := by
  have hoperands : HasEffect .checks (do
      let bytes ← fetchReleased
      checkLock p
      return bytes : Exec H Word) :=
    .andThen fetchReleased_hasEffect fun bytes => (checkLock_hasEffect p).map _
  have hv' : far? = (value? (do
      let bytes ← fetchReleased
      checkLock p
      return bytes : Exec H Word) m).map (.ret w) := by
    rw [hv, ← join_value?_some]
    simp only [bind_assoc, pure_bind]
  have hrun : ∀ bytes {m : Machine H}, PermitsFar permits m (.ret w bytes) →
      Ends (do returnFar w bytes; release bytes) m
        (fun _ m' => m.usesDescriptors = true → CompletesFar permits m (.ret w bytes) m')
        (fun f m' => Effect.transfers.Faults permits m f m') := by
    intro bytes m hp
    rw [ends_bind]
    exact (returnFar_ends hp).mono (fun _ m' h hu => (h hu).setRegs _) fun _ _ h => h
  have h : Ends _ m (fun _ m' => Completes permits m .retFarReleasing far? m')
      (fun f m' => Fails permits m p .retFarReleasing far? f m') :=
    runFar_ends hoperands hc nofun hv' hp hrun
  simpa only [retFarReleasing, bind_assoc, pure_bind] using h

/-- An instruction is completed, or it fails. -/
theorem runInstruction_ends (p : Prefixes) (i : Instruction) (hc : CoversSegments permits m)
    (hp : ∀ {far}, farInstruction? p i m = some far → PermitsFar permits m far) :
    Ends (runInstruction p i) m (fun _ m' => Completes permits m i (farInstruction? p i m) m')
      (fun f m' => Fails permits m p i (farInstruction? p i m) f m') := by
  cases i with
  | indirectGroup =>
    rw [runInstruction, operandWidth, ends_bind, ends_view]
    exact indirectGroup_ends hc _ (congrArg Option.join (value?_view_bind _ _ m)) hp
  | loop mode =>
    rw [runInstruction, operandWidth, ends_bind, ends_view]
    exact loop_ends hc (p.operandWidth m.toProcessor) mode
  | far transfer =>
    rw [runInstruction, operandWidth, ends_bind, ends_view]
    exact runFar_ends (fetchFarTarget_hasEffect p _) hc nofun (join_value?_some _ _ m) hp
      fun dest _ hp => transferFar_ends hp
  | retFar =>
    rw [runInstruction, operandWidth, ends_bind, ends_view]
    exact runFar_ends (checkLock_hasEffect p) hc nofun (join_value?_some _ _ m) hp
      fun _ _ hp => returnFar_ends hp
  | retFarReleasing =>
    rw [runInstruction, operandWidth, ends_bind, ends_view]
    exact retFarReleasing_ends hc _ (congrArg Option.join (value?_view_bind _ _ m)) hp
  | _ => exact runNear_ends (runInstruction_hasEffect p rfl) hc nofun

end Exec

end Ia32
