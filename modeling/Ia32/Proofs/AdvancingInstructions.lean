import Ia32.Proofs.CodePassing
import Ia32.Proofs.ControlTransfers
import Ia32.Proofs.FloatEffects
import Ia32.Proofs.OperandAccesses
import Ia32.Proofs.StandingFloats

/-!
# Instructions that advance

Some instructions go on to the one behind them: they do not transfer control, or their
condition does not hold, and no marker repeats them.  When such an instruction is
completed, the instruction pointer has passed what its form calls for behind the
opcode.  Many of them end before they have done anything: a shift by zero, a scan of
zero, a floating-point instruction that an exception stops.  They have taken all their
code by then.
-/

-- A long program has a long answer.
set_option synthInstance.maxSize 512

namespace Ia32

open Host Exec

variable {H α β : Type} [Host H]

/-- Some bytes are what an instruction has behind its opcode, in code of a default width and behind
some markers. -/
def Form.Follows (f : Form) (wide : Bool) (p : Prefixes) : List Byte → Prop :=
  f.Fits (.ofDefault wide p.operandSize) (.ofDefault wide p.addressSize)

theorem Form.follows_of_mode {f : Form} {wide : Bool} {p : Prefixes} {first : Byte}
    {code immediate : List Byte} (hf : f.mode = true)
    (h : (ModeByte.ofByte first).OperandCode (.ofDefault wide p.addressSize) code)
    (hi : immediate.length =
      f.immediateLength (.ofDefault wide p.operandSize) (ModeByte.ofByte first).reg) :
    f.Follows wide p ([first] ++ (code ++ immediate)) := by
  have hfits := Form.fits_of_mode hf h hi
  exact hfits

/-- The width of operands of a size, where the full width is given. -/
def Size.among (full : Width) : Size → Width
  | .byte => .byte
  | .full => full

theorem Size.length_immediate (size : Size) (w : Width) :
    (size.among w).bytes = size.immediate.length w := by
  cases size <;> rfl

theorem Immediate.length_ofShort (short : Bool) (w : Width) :
    (if short then 1 else w.bytes) = (Immediate.ofShort short).length w := by
  cases short <;> rfl

/-- Without an operand in memory there is nothing behind the mode byte. -/
theorem FloatInstruction.operandCode_nil {number : BitVec 3} {b : ModeByte} {i : FloatInstruction}
    (h : decode number b = .ok i) (hi : i.hasMemoryOperand = false) (w : Width) :
    b.OperandCode w [] := by
  by_cases hregister : b.isRegister = true
  · rw [ModeByte.OperandCode, if_pos hregister]
  · have hmemory := ofMemory_memory number b.reg
    rw [decode, if_neg hregister] at h
    rw [h] at hmemory
    exact absurd (hi.symm.trans hmemory) Bool.false_ne_true

/-- Whether an instruction works on strings, in memory or at a port. -/
def Instruction.isString : Instruction → Bool
  | .compareStrings _ | .scanString _ | .inputString _ | .outputString _ => true
  | _ => false

namespace Exec

variable {wide : Bool} {p : Prefixes} {L : List Byte → Prop} {f : Form}

/-! ## Rules for instructions -/

namespace Advances

/-- An instruction without a mode byte. -/
theorem unmoded {x : Exec H α} (hf : f.mode = false)
    (h : Advances wide x (·.length = f.immediate.length (.ofDefault wide p.operandSize))) :
    Advances wide x (f.Follows wide p) :=
  h.mono fun _ => Form.fits_of_immediate hf

/-- An instruction with an operand and perhaps an immediate. -/
theorem moded {k : ModeByte × Operand → Exec H α} (hf : f.mode = true)
    (hk : ∀ b place, Advances wide (k (b, place))
      (·.length = f.immediateLength (.ofDefault wide p.operandSize) b.reg)) :
    Advances wide (fetchOperand p >>= k) (f.Follows wide p) := by
  refine .take (fetchOperand_skips p) fun code (b, place) hcode => ?_
  obtain ⟨first, rest, rfl, rfl, hrest⟩ := hcode
  exact (hk _ place).mono fun immediate hlength => Form.follows_of_mode hf hrest hlength

/-- An instruction with an operand alone. -/
theorem operandAlone {k : ModeByte × Operand → Exec H α}
    [hk : ∀ b place, Stands (k (b, place))] :
    Advances wide (fetchOperand p >>= k) (Form.Follows { mode := true } wide p) :=
  .moded rfl fun b place => .stand (hk b place) rfl

/-- The immediate is taken last. -/
theorem immediate {x : Exec H β} {k : β → Exec H α} {n n' : Nat}
    (hx : Skips wide x fun code _ => code.length = n) (hn : n = n') [hk : ∀ b, Stands (k b)] :
    Advances wide (x >>= k) (·.length = n') :=
  hn ▸ .taking hx hk

/-- The width of operands of a size. -/
theorem sized {size : Size} {k : Width → Exec H α}
    (hk : Advances wide (k (size.among (.ofDefault wide p.operandSize))) L) :
    Advances wide (widthOf p size >>= k) L := by
  cases size with
  | byte => exact hk
  | full => exact .operandWidth hk

end Advances

/-! ## Operands behind other parts -/

variable (p) (w : Width)

theorem unaryGroup_advances (size : Size) :
    Advances wide (unaryGroup p (size.among (.ofDefault wide p.operandSize)) : Exec H Unit)
      (Form.Follows { mode := true, immediate := size.immediate, testOnly := true } wide p) := by
  refine .moded rfl fun b place => ?_
  generalize hn : Form.immediateLength _ _ b.reg = n
  have htest (h : ¬2 ≤ b.reg) : (size.among (.ofDefault wide p.operandSize)).bytes = n := by
    rw [← hn, Form.immediateLength, if_neg fun hc => h hc.2, size.length_immediate]
  have hrest (h : 2 ≤ b.reg) : 0 = n := by
    rw [← hn, Form.immediateLength, if_pos ⟨rfl, h⟩]
  dsimp only
  split
  case h_1 => exact .immediate (fetch_skips _) (htest (by bv_omega))
  case h_2 => exact .immediate (fetch_skips _) (htest (by bv_omega))
  case h_8 _ hzero hone _ _ _ _ _ =>
    exact .stand inferInstance (hrest ((Nat.two_le_iff _).2 ⟨hzero, hone⟩))
  all_goals exact .stand inferInstance (hrest (by bv_omega))

theorem incrementByte_advances :
    Advances wide (incrementByte p : Exec H Unit) (Form.Follows { mode := true } wide p) := by
  refine .moded rfl fun b place => .stand ?_ rfl
  dsimp only
  split <;> infer_instance

theorem bitScan_advances (order : ScanOrder) :
    Advances wide (bitScan p w order : Exec H Unit) (Form.Follows { mode := true } wide p) := by
  refine .moded rfl fun b place => .stand ?_ rfl
  refine .followed fun _ => .followed fun _ => .followed fun value => ?_
  cases scan? w order value with
  | none => exact .ofUpdate fun _ => rfl
  | some index => exact .ofUpdate fun _ => rfl

/-- The operand is taken after the pop. -/
theorem popOperand_advances :
    Advances wide (popOperand p w : Exec H Unit) (Form.Follows { mode := true } wide p) := by
  refine .take fetch8_skips fun code first hcode => ?_
  subst hcode
  refine .ite (fun _ => .throw_bind _) fun _ => .after (checkLock_keeps p) fun _ => ?_
  refine .keepingStack (.after (pop_keeps w) fun value => ?_)
  refine .take (operand_skips p (.ofByte first)) fun code place hcode => ?_
  exact .stand inferInstance (Form.follows_of_mode rfl hcode rfl)

theorem bitByImmediate_advances :
    Advances wide (bitByImmediate p w : Exec H Unit)
      (Form.Follows { mode := true, immediate := .byte } wide p) := by
  refine .take fetch8_skips fun code first hcode => ?_
  subst hcode
  refine .ite (fun _ => .throw_bind _) fun _ => ?_
  refine .take (operand_skips p (.ofByte first)) fun code place hcode => ?_
  refine .mono (.immediate (fetch_skips .byte) rfl) fun immediate hlength => ?_
  exact Form.follows_of_mode rfl hcode hlength

/-! ## The floating-point unit -/

theorem takeOperand_skips {number : BitVec 3} {b : ModeByte} {i : FloatInstruction}
    (h : FloatInstruction.decode number b = .ok i) (hi : i.isControl = false) :
    Skips wide (takeOperand p b i : Exec H FloatOperand)
      fun code _ => b.OperandCode (.ofDefault wide p.addressSize) code := by
  have hread (seg : Seg) (offset : Dword) (format : NumberFormat) :
      Keeps wide (FloatExec.readNumber seg offset format : Exec H FloatExec.Loaded) :=
    keeps_of_observes (.bind (loadBytes_observes seg offset format.bytes) fun _ => .pure _)
  cases i with
  | arithMemory | compareMemory | load =>
    refine (memoryOperand_skips p b).bind fun code place hcode => ?_
    refine .after (hread _ _ _) fun _ => .pure ?_
    rwa [List.append_nil]
  | storeReal | storeInt | storeDecimal =>
    refine (memoryOperand_skips p b).bind fun code place hcode => .pure ?_
    rwa [List.append_nil]
  | loadControl | storeControl | storeStatus | statusToAccumulator | save | restore | initState
  | clearExceptions => cases hi
  | _ => exact .pure (FloatInstruction.operandCode_nil h rfl _)

/-- An instruction of the unit takes its operand from the code, also when it is stopped. -/
theorem runFloat_advances {number : BitVec 3} {b : ModeByte} {i : FloatInstruction}
    (h : FloatInstruction.decode number b = .ok i) :
    Advances wide (runFloat p b i : Exec H Unit)
      (b.OperandCode (.ofDefault wide p.addressSize)) := by
  cases hi : i.isControl with
  | false =>
    rw [runFloat_eq_program p b hi]
    refine .after (checkReady_keeps p) fun _ => .taking (takeOperand_skips p h hi) fun operand => ?_
    have hprogram := i.program_stands (H := H) p operand
    infer_instance
  | true =>
    have hready : Keeps wide (checkReady p : Exec H Unit) := checkReady_keeps p
    have havailable : Keeps wide (checkAvailable p : Exec H Unit) := checkAvailable_keeps p
    have hplace : Skips wide (memoryOperand p b : Exec H (Seg × Dword))
        fun code _ => b.OperandCode (.ofDefault wide p.addressSize) code := memoryOperand_skips p b
    have hnil (hi : i.hasMemoryOperand = false) :
        b.OperandCode (.ofDefault wide p.addressSize) [] := FloatInstruction.operandCode_nil h hi _
    cases i with
    | loadControl => exact .after hready fun _ => .taking hplace fun _ => inferInstance
    | storeControl => exact .after havailable fun _ => .taking hplace fun _ => inferInstance
    | storeStatus => exact .after havailable fun _ => .taking hplace fun _ => inferInstance
    | save => exact .after havailable fun _ => .taking hplace fun _ => inferInstance
    | restore => exact .after hready fun _ => .taking hplace fun _ => inferInstance
    | statusToAccumulator => exact .after havailable fun _ => .stand inferInstance (hnil rfl)
    | initState => exact .after havailable fun _ => .stand inferInstance (hnil rfl)
    | clearExceptions => exact .after havailable fun _ => .stand inferInstance (hnil rfl)
    | _ => cases hi

theorem escape_advances (number : BitVec 3) :
    Advances wide (escape p number : Exec H Unit) (Form.Follows { mode := true } wide p) := by
  refine .take fetch8_skips fun code first hcode => ?_
  subst hcode
  dsimp only
  split
  next => exact .throw _
  next i h =>
    refine .mono (.andThen (runFloat_advances p h) fun _ => ?_) fun code hcode => ?_
    · have hremember : Stands (remember p number (.ofByte first) : Exec H Unit) :=
        .ofUpdate fun _ => rfl
      infer_instance
    · have hfollows : Form.Follows { mode := true } wide p ([first] ++ (code ++ [])) :=
        Form.follows_of_mode rfl hcode rfl
      rwa [List.append_nil] at hfollows

/-! ## Strings -/

variable {p}

/-- A string instruction without a repeat marker runs once. -/
theorem string_stands (hp : p.repeats = none) (op : StringOp) :
    Stands (op.run p w : Exec H Unit) := by
  have hcomparison : Stands (repeatComparison p : Exec H Unit) := by
    rw [repeatComparison, hp]
    infer_instance
  have hinstruction : Stands (repeatInstruction p : Exec H Unit) := by
    simp only [repeatInstruction, hp, Option.isSome_none, Bool.false_eq_true, if_false]
    infer_instance
  cases op with
  | compare => unfold StringOp.run compareStrings; infer_instance
  | scan => unfold StringOp.run scanString; infer_instance
  | input => unfold StringOp.run inputString portNumber; infer_instance
  | output => unfold StringOp.run outputString portNumber; infer_instance

/-! ## Transfers that are not made -/

/-- A program that does something under a condition, when the condition does not hold. -/
theorem passes_unless {x : Exec H β} {c : Exec H Bool} {y : β → Exec H Unit}
    (hx : Skips wide x fun code _ => L code) (he : HasEffect .checks x) (hc : Steady c)
    [hs : Stands c] {m m' : Machine H} (hw : m.segs.cs.is32 = wide) (ht : value? c m = some false)
    (hrun : (x >>= fun b => do if ← c then y b).run m = .ok () m') :
    ∃ code, L code ∧ m.Passes code m' := by
  obtain ⟨b, m₁, hfirst, hrest⟩ := run_bind_eq_ok_iff.1 hrun
  obtain ⟨code, hcode, hskips⟩ := hx m b m₁ hw hfirst
  obtain ⟨eip, log, rfl⟩ := he.moved rfl hfirst
  obtain ⟨holds, m₂, hcond, hrest⟩ := run_bind_eq_ok_iff.1 hrest
  have hfalse : holds = false :=
    Option.some.inj ((value?_of_ok hcond).symm.trans ((hc m eip log).trans ht))
  rw [hfalse] at hrest
  cases hrest
  exact ⟨code, hcode, hskips.holds, (hs.eip_eq hcond).trans hskips.eip⟩

variable {m m' : Machine H}

theorem jumpIf_passes (cond : BitVec 4) (short : Bool)
    (ht : value? (transfersControl p (.jumpIf cond short)) m = some false)
    (hrun : (runInstruction p (.jumpIf cond short)).run m = .ok () m') :
    ∃ code, (Instruction.jumpIf cond short).form.Follows m.segs.cs.is32 p code ∧
      m.Passes code m' := by
  let w : Width := .ofDefault m.segs.cs.is32 p.operandSize
  have htake : Skips m.segs.cs.is32 (do checkLock p; fetchDistance w short : Exec H Dword)
      fun code _ => (Instruction.jumpIf cond short).form.Follows m.segs.cs.is32 p code :=
    .after (checkLock_keeps p) fun _ => (fetchDistance_skips w short).mono fun code _ hlength =>
      Form.fits_of_immediate rfl (hlength.trans (Immediate.length_ofShort short w))
  have hjump : (jumpIf p w cond short : Exec H Unit) =
      (do checkLock p; fetchDistance w short) >>= fun distance => (do
        if ← view fun s => Flags.condition s.eflags cond then jumpBy w distance) := by
    simp only [jumpIf, bind_assoc]
  have hchecks : HasEffect .checks (do checkLock p; fetchDistance w short : Exec H Dword) :=
    .andThen (checkLock_hasEffect p) fun _ => (fetchDistance_hasEffect w short).weaken (by decide)
  have hcond : Steady (view fun s => Flags.condition s.eflags cond : Exec H Bool) :=
    .view fun _ _ => rfl
  refine passes_unless (y := jumpBy w) htake hchecks hcond rfl ht ?_
  rw [runInstruction, operandWidth, run_view_bind] at hrun
  rw [← hjump]
  exact hrun

/-- A transfer behind a counter takes its distance first. -/
theorem counted_passes {c : Exec H Bool} (hc : Steady c) [hs : Stands c]
    (ht : value? c m = some false)
    (hrun : (do
      let distance ← fetchSigned8
      checkLock p
      if ← c then jumpBy w distance : Exec H Unit).run m = .ok () m') :
    ∃ code, Form.Follows { immediate := .byte } m.segs.cs.is32 p code ∧ m.Passes code m' := by
  have htake : Skips m.segs.cs.is32 (do
      let distance ← fetchSigned8
      checkLock p
      return distance : Exec H Dword) fun code _ =>
        Form.Follows { immediate := .byte } m.segs.cs.is32 p code := by
    refine fetchSigned8_skips.bind fun code distance hlength => ?_
    refine .after (checkLock_keeps p) fun _ => ?_
    exact .pure (Form.fits_of_immediate rfl (by rwa [List.append_nil]))
  have hfetch : HasEffect .checks (fetchSigned8 : Exec H Dword) :=
    fetchSigned8_hasEffect.weaken (by decide)
  have hchecks : HasEffect .checks (do
      let distance ← fetchSigned8
      checkLock p
      return distance : Exec H Dword) :=
    .andThen hfetch fun distance => (checkLock_hasEffect p).map fun _ => distance
  refine passes_unless (y := jumpBy w) htake hchecks hc rfl ht ?_
  simpa only [bind_assoc, pure_bind] using hrun

theorem loop_passes (mode : Option RepeatMode)
    (ht : value? (transfersControl p (.loop mode)) m = some false)
    (hrun : (runInstruction p (.loop mode)).run m = .ok () m') :
    ∃ code, Form.Follows { immediate := .byte } m.segs.cs.is32 p code ∧ m.Passes code m' := by
  have hs : Stands (transfersControl p (.loop mode) : Exec H Bool) := by
    unfold transfersControl
    infer_instance
  rw [runInstruction, operandWidth, run_view_bind] at hrun
  have hsteady : Steady (transfersControl p (.loop mode) : Exec H Bool) := fun _ _ _ => rfl
  refine counted_passes (p.operandWidth m.toProcessor) hsteady ht ?_
  simpa only [loop, transfersControl, bind_assoc, pure_bind] using hrun

theorem jumpIfCounterZero_passes
    (ht : value? (transfersControl p .jumpIfCounterZero) m = some false)
    (hrun : (runInstruction p .jumpIfCounterZero).run m = .ok () m') :
    ∃ code, Form.Follows { immediate := .byte } m.segs.cs.is32 p code ∧ m.Passes code m' := by
  have hs : Stands (transfersControl p .jumpIfCounterZero : Exec H Bool) := by
    unfold transfersControl
    infer_instance
  rw [runInstruction, operandWidth, run_view_bind] at hrun
  have hsteady : Steady (transfersControl p .jumpIfCounterZero : Exec H Bool) := fun _ _ _ => rfl
  refine counted_passes (p.operandWidth m.toProcessor) hsteady ht ?_
  simpa only [jumpIfCounterZero, transfersControl, bind_assoc, pure_bind, beq_iff_eq] using hrun

/-- An instruction of the indirect group that does not transfer control. -/
theorem indirectGroup_passes (ht : value? (transfersControl p .indirectGroup) m = some false)
    (hrun : (runInstruction p .indirectGroup).run m = .ok () m') :
    ∃ code, Form.Follows { mode := true } m.segs.cs.is32 p code ∧ m.Passes code m' := by
  rw [runInstruction, operandWidth, run_view_bind, indirectGroup, fetchOperand, bind_assoc] at hrun
  generalize p.operandWidth m.toProcessor = w at hrun
  obtain ⟨first, m₁, hfirst, hrest⟩ := run_bind_eq_ok_iff.1 hrun
  rw [transfersControl, value?_bind_of_ok hfirst] at ht
  have hreg : (ModeByte.ofByte first).reg.toNat ∉ [2, 3, 4, 5] :=
    of_decide_eq_false (Option.some.inj ht)
  obtain ⟨_, rfl, hskips⟩ := fetch8_skips m first m₁ rfl hfirst
  have hstands (place : Operand) :
      Stands (indirectOperand p w (.ofByte first) place : Exec H Unit) := by
    unfold indirectOperand
    split
    case h_3 htwo => exact absurd (by rw [htwo]; decide) hreg
    case h_4 hthree => exact absurd (by rw [hthree]; decide) hreg
    case h_5 hfour => exact absurd (by rw [hfour]; decide) hreg
    case h_6 hfive => exact absurd (by rw [hfive]; decide) hreg
    all_goals infer_instance
  have hoperand : Advances m.segs.cs.is32 (do
      let place ← operand p (.ofByte first)
      indirectOperand p w (.ofByte first) place : Exec H Unit)
        fun rest => Form.Follows { mode := true } m.segs.cs.is32 p ([first] ++ rest) :=
    .take (operand_skips p (.ofByte first)) fun code place hcode =>
      .stand (hstands place) (Form.follows_of_mode rfl hcode rfl)
  rw [bind_assoc] at hrest
  obtain ⟨rest, hfollows, hpasses⟩ := hoperand m₁ () m' hskips.is32 hrest
  exact ⟨_, hfollows, hskips.passes_append hpasses⟩

/-! ## Runs -/

/-- An instruction that is completed has taken the code that its form calls for, if it neither
transfers control nor repeats. -/
theorem runInstruction_passes {i : Instruction} (hp : i.isString = true → p.repeats = none)
    (ht : value? (transfersControl p i) m = some false)
    (hrun : (runInstruction p i).run m = .ok () m') :
    ∃ code, i.form.Follows m.segs.cs.is32 p code ∧ m.Passes code m' := by
  have straight (h : Advances m.segs.cs.is32 (runInstruction p i : Exec H Unit)
      (i.form.Follows m.segs.cs.is32 p)) :
      ∃ code, i.form.Follows m.segs.cs.is32 p code ∧ m.Passes code m' := h m () m' rfl hrun
  cases i with
  | aluToOperand size op => exact straight (.sized .operandAlone)
  | aluToRegister size op => exact straight (.sized .operandAlone)
  | aluAccumulator size op =>
    exact straight (.unmoded rfl (.sized (.immediate (fetch_skips _) (size.length_immediate _))))
  | aluImmediate size short =>
    exact straight (.sized (.moded rfl fun b place =>
      .immediate (fetchImmediate_skips _ short) (by cases short <;> cases size <;> rfl)))
  | testRegister size => exact straight (.sized .operandAlone)
  | testAccumulator size =>
    exact straight (.unmoded rfl (.sized (.immediate (fetch_skips _) (size.length_immediate _))))
  | incrementRegister r =>
    exact straight (.unmoded rfl (.operandWidth (.stand (modifyOperand_stands p _ _ _) rfl)))
  | decrementRegister r =>
    exact straight (.unmoded rfl (.operandWidth (.stand (modifyOperand_stands p _ _ _) rfl)))
  | incrementByte => exact straight (incrementByte_advances p)
  | unaryGroup size => exact straight (.sized (unaryGroup_advances p size))
  | indirectGroup => exact indirectGroup_passes ht hrun
  | multiplyRegister => exact straight (.operandWidth .operandAlone)
  | multiplyImmediate short =>
    exact straight (.operandWidth (.moded rfl fun b place =>
      .immediate (fetchImmediate_skips _ short) (Immediate.length_ofShort short _)))
  | setCondition code => exact straight .operandAlone
  | changeFlag change => exact straight (.unmoded rfl (.stand (changeFlag_stands p change) rfl))
  | shiftGroup size count =>
    exact straight (.sized (.moded rfl fun b place =>
      .immediate (shiftCount_skips count) (by cases count <;> rfl)))
  | doubleShift direction count =>
    exact straight (.operandWidth (.moded rfl fun b place =>
      .immediate (shiftCount_skips count) (by cases count <;> rfl)))
  | bitScan order => exact straight (.operandWidth (bitScan_advances p _ order))
  | bitByRegister op => exact straight (.operandWidth .operandAlone)
  | bitByImmediate => exact straight (.operandWidth (bitByImmediate_advances p _))
  | swapBytes r => exact straight (.unmoded rfl (.stand (swapBytes_stands p r) rfl))
  | pushRegister r =>
    exact straight (.unmoded rfl (.operandWidth (.stand (pushRegister_stands _ p r) rfl)))
  | popRegister r =>
    exact straight (.unmoded rfl (.operandWidth (.stand (popRegister_stands _ p r) rfl)))
  | pushImmediate short =>
    exact straight (.unmoded rfl (.operandWidth
      (.immediate (fetchImmediate_skips _ short) (Immediate.length_ofShort short _))))
  | popOperand => exact straight (.operandWidth (popOperand_advances p _))
  | pushAll =>
    exact straight (.unmoded rfl (.operandWidth (.stand (pushAll_stands _ p) rfl)))
  | popAll =>
    exact straight (.unmoded rfl (.operandWidth (.stand (popAll_stands _ p) rfl)))
  | compareStrings size =>
    exact straight (.unmoded rfl (.sized (.stand (string_stands _ (hp rfl) .compare) rfl)))
  | scanString size =>
    exact straight (.unmoded rfl (.sized (.stand (string_stands _ (hp rfl) .scan) rfl)))
  | input size port =>
    exact straight (.unmoded rfl (.sized
      (.immediate (portNumber_skips p port) (by cases port <;> rfl))))
  | output size port =>
    exact straight (.unmoded rfl (.sized
      (.immediate (portNumber_skips p port) (by cases port <;> rfl))))
  | inputString size =>
    exact straight (.unmoded rfl (.sized (.stand (string_stands _ (hp rfl) .input) rfl)))
  | outputString size =>
    exact straight (.unmoded rfl (.sized (.stand (string_stands _ (hp rfl) .output) rfl)))
  | jumpIf code short => exact jumpIf_passes code short ht hrun
  | loop mode => exact loop_passes mode ht hrun
  | jumpIfCounterZero => exact jumpIfCounterZero_passes ht hrun
  | escape number => exact straight (escape_advances p number)
  | wait => exact straight (.unmoded rfl (.stand (wait_stands p) rfl))
  | jump | call | ret | retReleasing | far | retFar | retFarReleasing => cases ht

/-- An instruction that is completed has said whether it transfers control. -/
theorem exists_transfersControl {i : Instruction} (hrun : (runInstruction p i).run m = .ok () m') :
    ∃ transfers, value? (transfersControl p i) m = some transfers := by
  cases i with
  | indirectGroup =>
    rw [runInstruction, operandWidth, run_view_bind, indirectGroup, fetchOperand,
      bind_assoc] at hrun
    obtain ⟨first, m₁, hfirst, -⟩ := run_bind_eq_ok_iff.1 hrun
    exact ⟨_, value?_bind_of_ok hfirst _⟩
  | _ => exact ⟨_, rfl⟩

end Exec

end Ia32
