import Ia32.Proofs.StackResponses

/-!
# Stack faults

A store to memory computes its bytes first.  For an empty register they are those that stand
for no number in its format, and nothing is written when the fault is not masked.  All other
instructions work on the register stack alone.

Every step with a stack fault is completed and records it, and unless it is stopped it
responds to it (`Machine.stackFault_step`).
-/

namespace Ia32

open Host Exec

variable {H : Type} {α : Type} {c : Config} {p : Prefixes} {f g : Fpu}
  {result : α → Fpu → Prop}

/-! ## Stores -/

/-- The bytes of the indefinite NaN in a format. -/
def RealFormat.indefinite : RealFormat → List Byte
  | .single => [0, 0, 0xC0, 0xFF]
  | .double => [0, 0, 0, 0, 0, 0, 0xF8, 0xFF]
  | .extended => Extended.indefinite.toBytes

/-- The bytes of the least integer of a format, which stands for numbers that are none. -/
def IntFormat.indefinite (format : IntFormat) : List Byte :=
  List.replicate (format.bytes - 1) 0 ++ [0x80]

namespace FloatInstruction

/-- What a store writes for a number that is none. -/
def indefinite? : FloatInstruction → Option (List Byte)
  | .storeReal format _ => some format.indefinite
  | .storeInt format _ => some format.indefinite
  | .storeDecimal => some FloatExec.indefiniteDecimal
  | _ => none

/-- Whether a store to memory pops the top register. -/
def popsStored : FloatInstruction → Bool
  | .storeReal _ pops | .storeInt _ pops => pops
  | .storeDecimal => true
  | _ => false

end FloatInstruction

namespace FloatExec

variable {i : FloatInstruction} {k : Unit → FloatExec H α} {bytes : List Byte}

/-- Computes the bytes that a store writes. -/
def bytesToStore (p : Prefixes) : FloatInstruction → FloatExec H (List Byte)
  | .storeReal format _ => do
    requireFull p 0
    let stored := Stored.ofReal format (← view (·.rounding)) (← view (·.value 0))
    raiseStore p stored.exceptions
    return stored.bytes
  | .storeInt format _ => do
    requireFull p 0
    let n ← roundToFormat p format (← view (·.value 0))
    return bytesOf format.bytes (BitVec.ofInt (8 * format.bytes) n).toNat
  | .storeDecimal => do
    requireFull p 0
    roundToDecimal p (← view (·.value 0))
  | _ => return []

theorem ofReal_indefinite (format : RealFormat) (mode : Rounding) :
    Stored.ofReal format mode .indefinite = ⟨format.indefinite, 0⟩ := by
  cases format <;> cases mode <;> decide

theorem bytesOf_least (format : IntFormat) :
    bytesOf format.bytes (BitVec.ofInt (8 * format.bytes) format.least).toNat =
      format.indefinite := by
  cases format <;> decide

theorem raiseStore_zero_answers (hk : Answers (k ()) c Status.c1 g result) :
    Answers (raiseStore p 0 >>= k) c Status.c1 g result := by
  have hnone : (raiseAfter p 0#16 : FloatExec H Unit) = pure () := raiseEach_zero p _
  unfold raiseStore raiseIfAmong
  simp only [BitVec.ofNat_eq_ofNat, BitVec.zero_and, if_true, ne_eq, not_true, decide_false,
    Bool.false_and, Bool.false_eq_true, if_false, hnone, bind_assoc, pure_bind]
  exact Leaves.config (d := fun _ => k ()) (fun _ => rfl) hk

theorem bytesToStore_handles (hi : i.indefinite? = some bytes) (hf : f.status &&& Status.c1 = 0)
    (hfault : i.Underflows f ∨ i.Overflows f) :
    Handles (bytesToStore p i : FloatExec H (List Byte)) c f f (i.Underflows f) (i.Overflows f)
      (i.IsInexactTangent f) fun stored f' => stored = bytes ∧ f.SameStack f' := by
  have hexact : i.IsInexactTangent f = False := eq_false fun h => by
    rw [h.1] at hi
    cases hi
  rw [hexact]
  cases i with
  | storeReal format pops =>
    cases hi
    refine handles_top (.start hf) rfl rfl hfault fun g hg hx => .view (.view ?_)
    rw [hg.value_eq, hx]
    dsimp only
    rw [ofReal_indefinite]
    exact raiseStore_zero_answers (.pure ⟨rfl, hg⟩)
  | storeInt format pops =>
    cases hi
    refine handles_top (.start hf) rfl rfl hfault fun g hg hx => .view ?_
    rw [hg.value_eq, hx, roundToFormat, bind_assoc]
    refine .view ?_
    have hnone : Extended.indefinite.toInt? g.rounding = (none, false) := rfl
    rw [hnone]
    dsimp only
    rw [bind_assoc]
    refine .raise (by decide) (by decide) ?_
    rw [pure_bind, bytesOf_least]
    exact .pure ⟨rfl, hg.setCondition _ _⟩
  | storeDecimal =>
    cases hi
    refine handles_top (.start hf) rfl rfl hfault fun g hg hx => .view ?_
    rw [hg.value_eq, hx]
    refine .ite (fun _ => ?_) fun h => absurd rfl h
    exact .raise (by decide) (by decide) (.pure ⟨rfl, hg.setCondition _ _⟩)
  | _ => cases hi

variable [Host H] {seg : Seg} {offset : Dword}

/-- A store computes its bytes, and then it writes them. -/
theorem program_eq_store (hi : i.indefinite? = some bytes) :
    (i.program p (.place seg offset) : FloatExec H Unit) =
      bytesToStore p i >>= fun stored => storeBytes seg offset stored >>= fun _ =>
        popIf i.popsStored := by
  cases i with
  | storeReal | storeInt =>
    simp only [FloatInstruction.program, storeReal, storeInt, bytesToStore, bind_assoc, pure_bind,
      FloatInstruction.popsStored]
  | storeDecimal =>
    simp only [FloatInstruction.program, storeDecimal, bytesToStore, bind_assoc,
      FloatInstruction.popsStored]
    rfl
  | _ => cases hi

end FloatExec

/-! ## Responses of programs -/

theorem Fpu.SameStack.tangent (h : f.SameStack g) (x : Extended) :
    (f.tangent x).SameStack (g.tangent x) := by
  unfold Fpu.tangent
  split_ifs
  · exact (h.store 0 _).pushNumber _
  · exact (h.store 0 _).pushNumber _
  · exact h
  · exact (h.store 0 _).pushNumber _

/-- A response concerns nothing but the stack. -/
theorem FloatInstruction.Responds.of_sameStack {i : FloatInstruction} {operand : FloatOperand}
    {f' f'' : Fpu} (h : f.SameStack g) (hr : i.Responds operand g f') (h' : f'.SameStack f'') :
    i.Responds operand f f'' := by
  cases i with
  | arithMemory =>
    cases operand with
    | number loaded =>
      obtain ⟨q, hq, hs⟩ := hr
      rw [h.value_eq] at hq
      exact ⟨q, hq, ((h.store 0 q).trans hs).trans h'⟩
    | _ => exact hr
  | arithTop | scale | remainder =>
    obtain ⟨q, hq, hs⟩ := hr
    rw [h.value_eq, h.value_eq] at hq
    exact ⟨q, hq, ((h.store 0 q).trans hs).trans h'⟩
  | arithInto _ j pops =>
    obtain ⟨q, hq, hs⟩ := hr
    rw [h.value_eq, h.value_eq] at hq
    exact ⟨q, hq, (((h.store j q).poppedIf pops).trans hs).trans h'⟩
  | timesLogarithm | angle =>
    obtain ⟨q, hq, hs⟩ := hr
    rw [h.value_eq, h.value_eq] at hq
    exact ⟨q, hq, ((h.store 1 q).pop.trans hs).trans h'⟩
  | neg | abs | sqrt | roundToIntegral | powerLessOne =>
    exact ((h.store 0 _).trans hr).trans h'
  | trig angle =>
    cases angle with
    | tan =>
      have ht : (g.tangent (g.value 0)).SameStack f' := hr
      rw [h.value_eq] at ht
      exact ((h.tangent _).trans ht).trans h'
    | sin | cos => exact ((h.store 0 _).trans hr).trans h'
  | compareMemory _ pops | storeReal _ pops | storeInt _ pops =>
    exact ((h.poppedIf pops).trans hr).trans h'
  | compare _ pops => exact ((h.repeat_pop pops).trans hr).trans h'
  | test => exact (h.trans hr).trans h'
  | storeDecimal => exact (h.pop.trans hr).trans h'
  | load =>
    cases operand with
    | number loaded => exact ((h.pushNumber _).trans hr).trans h'
    | _ => exact hr
  | loadConstant constant => exact ((h.pushNumber constant.value).trans hr).trans h'
  | loadRegister j =>
    have hpushed : (g.pushNumber (g.value j)).SameStack f' := hr
    rw [h.value_eq] at hpushed
    exact ((h.pushNumber _).trans hpushed).trans h'
  | storeRegister j pops =>
    exact (((h.store j _).poppedIf pops).trans hr).trans h'
  | exchange j =>
    have hexchanged : ((g.store 0 (g.value j)).store j (g.value 0)).SameStack f' := hr
    rw [h.value_eq, h.value_eq] at hexchanged
    exact (((h.store 0 _).store j _).trans hexchanged).trans h'
  | _ => exact hr

namespace FloatExec

variable {i : FloatInstruction}

/-- An instruction that does not store to memory. -/
theorem program_handles [Host H] {operand : FloatOperand} (hi : i.indefinite? = none)
    (htakes : i.Takes operand) (hf : f.status &&& Status.c1 = 0)
    (hfault : i.Underflows f ∨ i.Overflows f) :
    Handles (i.program p operand : FloatExec H Unit) c f f (i.Underflows f) (i.Overflows f)
      (i.IsInexactTangent f) fun _ f' => i.Responds operand f f' := by
  by_cases htan : i = .trig .tan
  · rw [htan] at hfault ⊢
    exact tan_handles hf hfault
  have hexact : i.IsInexactTangent f = False := eq_false fun h => htan h.1
  rw [hexact]
  have hnone (hreads : i.reads = []) (hpushes : i.pushes = false) : False := by
    rcases hfault with ⟨j, hj, -⟩ | ⟨hp, -⟩
    · simp [hreads] at hj
    · simp [hpushes] at hp
  cases i with
  | arithMemory op format =>
    obtain ⟨loaded, rfl⟩ := htakes
    exact arithLoaded_handles loaded hf hfault
  | compareMemory format pops =>
    obtain ⟨loaded, rfl⟩ := htakes
    exact compareLoaded_handles loaded hf hfault
  | load format =>
    obtain ⟨loaded, rfl⟩ := htakes
    exact load_handles loaded hf hfault
  | arithTop op j => exact arithTop_handles hf hfault
  | arithInto op j pops => exact arithInto_handles hf hfault
  | compare j pops => exact compare_handles hf hfault
  | test => exact test_handles hf hfault
  | neg => exact mapTop_handles hf rfl rfl hfault Extended.neg
  | abs => exact mapTop_handles hf rfl rfl hfault Extended.abs
  | sqrt => exact sqrt_handles hf hfault
  | roundToIntegral => exact roundToIntegral_handles hf hfault
  | powerLessOne => exact powerLessOne_handles hf hfault
  | scale => exact scale_handles hf hfault
  | remainder => exact remainder_handles hf hfault
  | trig angle =>
    cases angle with
    | sin => exact trig_handles (by decide) hf rfl hfault
    | cos => exact trig_handles (by decide) hf rfl hfault
    | tan => exact absurd rfl htan
  | timesLogarithm =>
    have hcompute : ∀ y x r, Extended.firstNan? x y = some r → y.timesLogarithm x = r :=
      fun _ _ _ h => by rw [Extended.timesLogarithm, h]
    exact combine_handles hcompute hf rfl rfl hfault
  | angle =>
    have hcompute : ∀ y x r, Extended.firstNan? x y = some r → y.angle x = r :=
      fun _ _ _ h => by rw [Extended.angle, h]
    exact combine_handles hcompute hf rfl rfl hfault
  | loadRegister j => exact loadRegister_handles hf hfault
  | loadConstant constant => exact loadConstant_handles hf hfault
  | storeRegister j pops => exact storeRegister_handles hf hfault
  | exchange j => exact exchange_handles hf hfault
  | storeReal | storeInt | storeDecimal => cases hi
  | _ => exact (hnone rfl rfl).elim

end FloatExec

/-! ## Steps -/

namespace FloatStart

variable [Host H]

/-- A store can be done: the segment grants it, and the host does not refuse what is stored for a
number that is none. -/
def CanStore (start : FloatStart) (m : Machine H) : Prop :=
  ∀ bytes seg offset, start.instruction.indefinite? = some bytes →
    start.operand = .place seg offset →
      (m.segs.get seg).Grants m.toProcessor .write offset bytes.length ∧
        ¬Refuses m.host ((m.segs.get seg).base + offset) bytes

/-- The host after a store, if the instruction is one, for a number that is none. -/
def hostAfter (start : FloatStart) (m : Machine H) : H :=
  match start.instruction.indefinite?, start.operand with
  | some bytes, .place seg offset => storeAll m.host ((m.segs.get seg).base + offset) bytes
  | _, _ => m.host

end FloatStart

section Steps

variable [Host H] {m : Machine H} {start : FloatStart} {underflows overflows cleared : Prop}

omit [Host H] in
theorem Fpu.Passes.of_status_eq {r r' : Fpu → Prop} (h : f.Passes underflows overflows cleared r g)
    {g' : Fpu} (hs : g'.status = g.status) (hr : r' g') :
    f.Passes underflows overflows cleared r' g' where
  recorded := by rw [hs]; exact h.recorded
  clear := by rw [hs]; exact h.clear
  set := by rw [hs]; exact h.set
  masked := h.masked
  pending := by rw [isPending, hs]; exact h.pending
  cleared := by rw [hs]; exact h.cleared
  result := hr

omit [Host H] in
theorem FloatInstruction.exists_place {i : FloatInstruction} {operand : FloatOperand}
    {bytes : List Byte} (hi : i.indefinite? = some bytes) (htakes : i.Takes operand) :
    ∃ seg offset, operand = .place seg offset := by
  cases i with
  | storeReal | storeInt | storeDecimal => exact htakes
  | _ => cases hi

omit [Host H] in
theorem FloatInstruction.responds_of_store {i : FloatInstruction} {operand : FloatOperand}
    {bytes : List Byte} (hi : i.indefinite? = some bytes)
    (h : (f.poppedIf i.popsStored).SameStack g) : i.Responds operand f g := by
  cases i with
  | storeReal | storeInt | storeDecimal => exact h
  | _ => cases hi

omit [Host H] in
theorem FloatExec.popIf_runs (pops : Bool) (m : Machine H) :
    (popIf pops).Runs m () { m with fpu := m.fpu.poppedIf pops } := by
  cases pops with
  | false => exact .pure () m
  | true => exact .update _ m

/-- The program of a store.  Once it knows what to write it writes that and pops. -/
theorem FloatStart.run_of_stored {bytes : List Byte} {seg : Seg} {offset : Dword}
    {ok : List Byte → Fpu → Prop} {stop : Fpu → Prop}
    (hi : start.instruction.indefinite? = some bytes) (hplace : start.operand = .place seg offset)
    (hx : (FloatExec.bytesToStore start.markers start.instruction : FloatExec H _).Leaves m.config
      m.fpu ok stop)
    (hcan : ∀ stored f, ok stored f →
      (m.segs.get seg).Grants m.toProcessor .write offset stored.length ∧
        ¬Refuses m.host ((m.segs.get seg).base + offset) stored) :
    ∃ a? f host log,
      EStateM.run (start.program : FloatExec H Unit).run m =
        .ok a? { m with fpu := f, host := host, log := log } ∧
      ((∃ stored f₁, ok stored f₁ ∧ f = f₁.poppedIf start.instruction.popsStored ∧
          host = storeAll m.host ((m.segs.get seg).base + offset) stored) ∨
        stop f ∧ host = m.host) := by
  have hprogram : (start.program : FloatExec H Unit) =
      start.instruction.program start.markers (.place seg offset) :=
    congrArg _ hplace
  rw [hprogram, FloatExec.program_eq_store hi]
  obtain ⟨f, log, ⟨stored, hrun, hok⟩ | ⟨hrun, hstop⟩⟩ := hx m rfl rfl
  · obtain ⟨hg, ha⟩ := hcan stored f hok
    have hstored := FloatExec.storeBytes_runs (m := { m with fpu := f, log := log })
      ⟨hg.rights, hg.bounds⟩ ha
    exact ⟨_, _, _, _, hrun.bind (hstored.bind (FloatExec.popIf_runs _ _)),
      .inl ⟨stored, f, hok, rfl, rfl⟩⟩
  · refine ⟨none, f, m.host, log, ?_, .inr ⟨hstop, rfl⟩⟩
    rw [OptionT.run_bind]
    exact Exec.run_bind_of_ok hrun _

/-- A program with a stack fault, with what it does to the memory. -/
theorem FloatStart.run_of_fault (htakes : start.instruction.Takes start.operand)
    (hc1 : m.fpu.status &&& Status.c1 = 0) (hstore : start.CanStore m)
    (hfault : start.instruction.Underflows m.fpu ∨ start.instruction.Overflows m.fpu) :
    ∃ a? f host log,
      EStateM.run (start.program : FloatExec H Unit).run m =
        .ok a? { m with fpu := f, host := host, log := log } ∧
      (m.fpu.Passes (start.instruction.Underflows m.fpu) (start.instruction.Overflows m.fpu)
          (start.instruction.IsInexactTangent m.fpu)
          (start.instruction.Responds start.operand m.fpu) f ∧ host = start.hostAfter m ∨
        m.fpu.Fails (start.instruction.Underflows m.fpu) (start.instruction.Overflows m.fpu)
          (start.instruction.IsInexactTangent m.fpu) f ∧ host = m.host) := by
  cases hi : start.instruction.indefinite? with
  | none =>
    obtain ⟨f, log, ⟨_, hrun, hpass⟩ | ⟨hrun, hfail⟩⟩ :=
      FloatExec.program_handles hi htakes hc1 hfault (p := start.markers) m rfl rfl
    · exact ⟨_, f, m.host, log, hrun, .inl ⟨hpass, by rw [hostAfter, hi]⟩⟩
    · exact ⟨_, f, m.host, log, hrun, .inr ⟨hfail, rfl⟩⟩
  | some bytes =>
    obtain ⟨seg, offset, hplace⟩ := FloatInstruction.exists_place hi htakes
    obtain ⟨a?, f, host, log, hrun, hend⟩ := FloatStart.run_of_stored hi hplace
      (FloatExec.bytesToStore_handles hi hc1 hfault) fun stored f h => by
        obtain ⟨rfl, -⟩ := h.result
        exact hstore _ seg offset hi hplace
    refine ⟨a?, f, host, log, hrun, hend.imp ?_ id⟩
    rintro ⟨stored, f₁, hpass, rfl, rfl⟩
    obtain ⟨rfl, hstack⟩ := hpass.result
    have hstatus : (f₁.poppedIf start.instruction.popsStored).status = f₁.status := by
      cases start.instruction.popsStored <;> rfl
    refine ⟨hpass.of_status_eq hstatus (FloatInstruction.responds_of_store hi ?_), ?_⟩
    · exact hstack.poppedIf _
    · simp only [hostAfter, hi, hplace]

/-- A stack fault is recorded, and condition one tells which one it is.  When both are met and
invalid operations are not masked, it is the underflow.  With all exceptions masked nothing is
pending.  When nothing is pending the instruction has responded, and a store has written what
stands for no number. -/
theorem Machine.stackFault_step (h : m.Ready start) (hstore : start.CanStore m)
    (hfault : start.instruction.Underflows m.fpu ∨ start.instruction.Overflows m.fpu) :
    m.step.1 = .completed ∧
      m.fpu.Faulted (start.instruction.Underflows m.fpu) (start.instruction.Overflows m.fpu)
        (start.instruction.IsInexactTangent m.fpu) m.step.2.fpu ∧
      (m.fpu.IsMaskingAll → m.step.2.fpu.isPending = false) ∧
      (m.step.2.fpu.isPending = true → m.step.2.host = m.host) ∧
      (m.step.2.fpu.isPending = false →
        m.fpu.unmasked Exception.invalid = 0 ∧
        (start.instruction.IsInexactTangent m.fpu → m.step.2.fpu.status &&& Status.c1 = 0) ∧
        start.instruction.Responds start.operand m.fpu m.step.2.fpu ∧
        m.step.2.host = start.hostAfter m) := by
  have hready := m.fpu.sameStack_readied
  have hidle : m.fpu.readied.isPending = false :=
    (m.fpu.isPending_setCondition (by decide) false).trans h.idle
  obtain ⟨eip, log, hstep⟩ := h.exists_step
  have hstore' : start.CanStore { m with eip := eip, log := log, fpu := m.fpu.readied } :=
    fun bytes seg offset hi hplace =>
      have hcan := hstore bytes seg offset hi hplace
      ⟨⟨hcan.1.rights, hcan.1.bounds⟩, hcan.2⟩
  obtain ⟨a?, f, host, log', hrun, hend⟩ :=
    FloatStart.run_of_fault h.takes (Fpu.clear_status_and (by decide)) hstore' hfault
  obtain ⟨offset, selector, opcode, hs⟩ := hstep _ _ hrun
  rw [hs]
  rcases hend with ⟨hpass, rfl⟩ | ⟨hfail, rfl⟩
  · have hp : f.isPending = false := hpass.pending.trans hidle
    have hresponds : start.instruction.Responds start.operand m.fpu
        (f.remembering offset selector opcode) :=
      hpass.result.of_sameStack hready ((Fpu.SameStack.refl f).remembering _ _ _)
    refine ⟨rfl, ⟨hpass.recorded, hpass.clear, hpass.set⟩, fun _ => hp, fun hn => ?_, fun _ => ?_⟩
    · exact absurd (hp.symm.trans hn) Bool.false_ne_true
    · exact ⟨hpass.masked, hpass.cleared, hresponds, rfl⟩
  · have hp : f.isPending = true := hfail.pending
    refine ⟨rfl, ⟨hfail.recorded, hfail.clear, hfail.set⟩, fun hm => ?_, fun _ => rfl, fun hn => ?_⟩
    · exact absurd hm hfail.unmasked
    · exact absurd (hn.symm.trans hp) Bool.false_ne_true

end Steps

/-- A machine before it adds an empty register to one. -/
def Machine.addingEmpty : Machine Ram := .running #[0xD8, 0xC1] (Fpu.initial.store 0 .one)

/-- A machine before it stores an empty register as a single at offset `4`. -/
def Machine.storingEmpty : Machine Ram :=
  .running #[0xD9, 0x16, 0x04, 0x00, 0, 0, 0, 0] Fpu.initial

/-- The sum is the indefinite NaN, and so is what is stored. -/
theorem Machine.stackFault_step_of_empty :
    (addingEmpty.step.1 = .completed ∧ addingEmpty.step.2.fpu.isPending = false ∧
      addingEmpty.step.2.fpu.status &&& Status.c1 = 0 ∧
      addingEmpty.step.2.fpu.st 0 = .indefinite) ∧
    (storingEmpty.step.1 = .completed ∧
      storingEmpty.step.2.fpu.status &&& FloatExec.stackExceptions = FloatExec.stackExceptions ∧
      hostBytes storingEmpty.step.2.host 4 4 = .ok [0, 0, 0xC0, 0xFF]) := by
  constructor
  · have hready : addingEmpty.Ready ⟨{ start := 0 }, 0, .ofByte 0xC1, .arithTop .add 1, .none⟩ :=
      ⟨by decide +kernel, rfl, rfl, by decide, by decide⟩
    have hunderflow : (FloatInstruction.arithTop .add 1).Underflows addingEmpty.fpu :=
      ⟨1, by decide, by decide⟩
    obtain ⟨hcompleted, hfaulted, hidle, -, hends⟩ :=
      stackFault_step hready (fun _ _ _ hnone => nomatch hnone) (.inl hunderflow)
    obtain ⟨-, -, ⟨q, hq, hstack⟩, -⟩ := hends (hidle rfl)
    have hroom := FloatInstruction.not_overflows (i := .arithTop .add 1) (f := addingEmpty.fpu) rfl
    refine ⟨hcompleted, hidle rfl, hfaulted.clear (.inl hroom), ?_⟩
    rw [hstack.st_eq, Fpu.st_store_self]
    exact hq.eq_indefinite (fun h => absurd h (by decide)) fun _ => by decide
  · have hready : storingEmpty.Ready
        ⟨{ start := 0 }, 1, .ofByte 0x16, .storeReal .single false, .place .ds 4⟩ :=
      ⟨by decide +kernel, rfl, rfl, by decide, by decide⟩
    have hbacks : Backs (fun a => a.toNat < storingEmpty.host.bytes.size) storingEmpty.host :=
      Ram.backs rfl
    have hin : Within (fun a => a.toNat < storingEmpty.host.bytes.size)
        ((storingEmpty.segs.get .ds).base + 4) 4 := by
      unfold Within
      decide +kernel
    have hstore : FloatStart.CanStore
        ⟨{ start := 0 }, 1, .ofByte 0x16, .storeReal .single false, .place .ds 4⟩ storingEmpty := by
      rintro bytes seg offset ⟨⟩ ⟨⟩
      exact ⟨⟨by decide, by decide⟩, not_refuses_of_backs hbacks hin⟩
    have hunderflow : (FloatInstruction.storeReal .single false).Underflows storingEmpty.fpu :=
      ⟨0, by decide, by decide⟩
    obtain ⟨hcompleted, hfaulted, hidle, -, hends⟩ :=
      stackFault_step hready hstore (.inl hunderflow)
    obtain ⟨-, -, -, hhost⟩ := hends (hidle rfl)
    refine ⟨hcompleted, hfaulted.recorded, ?_⟩
    rw [hhost]
    exact hostBytes_storeAll hbacks hin (by decide)

/-- A machine before it changes the sign of an empty register. -/
def Machine.negatingEmpty : Machine Ram := .running #[0xD9, 0xE0] Fpu.initial

/-- A machine before it adds an empty register to a NaN. -/
def Machine.addingToNan : Machine Ram :=
  .running #[0xD8, 0xC1] (Fpu.initial.store 0 ⟨false, Extended.specialExponent, ~~~0⟩)

/-- A machine before it pushes one onto a full stack. -/
def Machine.overflowingOne : Machine Ram := .running #[0xD9, 0xE8] { Fpu.initial with tags := 0 }

/-- A machine before it pushes a copy of an empty register onto a full stack, when invalid
operations are not masked. -/
def Machine.overflowingEmpty : Machine Ram :=
  .running #[0xD9, 0xC1] { Fpu.initial with control := 0x037E, tags := 0xC }

/-- A machine before it pushes the tangent of one onto a full stack. -/
def Machine.overflowingTangent : Machine Ram :=
  .running #[0xD9, 0xF2] { Fpu.initial.store 0 .one with tags := 0 }

/-- Three of them leave another number than the indefinite NaN, and two leave condition one clear
after an overflow. -/
theorem Machine.not_indefinite_of_stackFault :
    (negatingEmpty.floatStart? = some ⟨{ start := 0 }, 1, .ofByte 0xE0, .neg, .none⟩ ∧
      negatingEmpty.fpu.tag 0 = .empty ∧ negatingEmpty.fpu.unmasked Status.exceptions = 0 ∧
      negatingEmpty.step.1 = .completed ∧
      negatingEmpty.step.2.fpu.st 0 = Extended.indefinite.neg ∧
      Extended.indefinite.neg ≠ .indefinite) ∧
    (addingToNan.floatStart? = some ⟨{ start := 0 }, 0, .ofByte 0xC1, .arithTop .add 1, .none⟩ ∧
      addingToNan.fpu.tag 1 = .empty ∧ addingToNan.fpu.unmasked Status.exceptions = 0 ∧
      addingToNan.step.1 = .completed ∧
      addingToNan.step.2.fpu.st 0 = addingToNan.fpu.st 0 ∧
      addingToNan.fpu.st 0 ≠ .indefinite) ∧
    (overflowingOne.floatStart? =
        some ⟨{ start := 0 }, 1, .ofByte 0xE8, .loadConstant .one, .none⟩ ∧
      overflowingOne.fpu.tag 7 ≠ .empty ∧ overflowingOne.fpu.unmasked Status.exceptions = 0 ∧
      overflowingOne.step.1 = .completed ∧
      overflowingOne.step.2.fpu.st 0 = .one ∧ Extended.one ≠ .indefinite) ∧
    (overflowingEmpty.floatStart? = some ⟨{ start := 0 }, 1, .ofByte 0xC1, .loadRegister 1, .none⟩ ∧
      overflowingEmpty.fpu.tag 1 = .empty ∧ overflowingEmpty.fpu.tag 7 ≠ .empty ∧
      overflowingEmpty.step.1 = .completed ∧
      overflowingEmpty.step.2.fpu.status &&& Status.c1 = 0) ∧
    (overflowingTangent.floatStart? = some ⟨{ start := 0 }, 1, .ofByte 0xF2, .trig .tan, .none⟩ ∧
      overflowingTangent.fpu.tag 0 ≠ .empty ∧ overflowingTangent.fpu.tag 7 ≠ .empty ∧
      overflowingTangent.step.1 = .completed ∧
      overflowingTangent.step.2.fpu.status &&& Status.c1 = 0) := by
  decide +kernel

end Ia32
