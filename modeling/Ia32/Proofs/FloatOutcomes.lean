import Ia32.Proofs.FloatStops
import Ia32.Proofs.StepRuns

/-!
# Outcomes of floating-point instructions

An instruction of the unit prepares itself: it waits for the unit, finds its
operand and reads it.  Then it runs a program that may be stopped, or it changes
the unit once.  So it either leaves no new exception pending or has done nothing
else but compute.  Restoring a saved state is the exception, since the state may
be one with an exception that waits.
-/

namespace Ia32

open Host Exec

/-! ## States that control instructions leave -/

namespace Fpu.WellFormed

variable {f : Fpu}

/-- Without exceptions nothing is left that the summary bits could tell. -/
theorem clearExceptions (h : f.WellFormed) :
    (f.setCondition clearedExceptions false).WellFormed := by
  have hun : (f.setCondition clearedExceptions false).unmasked
      (f.setCondition clearedExceptions false).status = 0 := by
    rw [unmasked_eq, clear_status_and (by decide)]
    exact BitVec.zero_and
  refine { h with status_top := ?_, summary := ?_, busy := ?_ }
  · rw [setCondition_status_and (by decide)]
    exact h.status_top
  · exact iff_of_false (not_not.2 (clear_status_and (by decide))) (not_not.2 hun)
  · exact iff_of_false (not_not.2 (clear_status_and (by decide))) (not_not.2 hun)

end Fpu.WellFormed

/-- After the exceptions are cleared nothing waits to be reported. -/
theorem Fpu.isPending_clearExceptions (f : Fpu) :
    (f.setCondition clearedExceptions false).isPending = false := by
  rw [isPending, clear_status_and (by decide)]
  rfl

namespace Exec

variable {H : Type} {α β : Type} {known calm : Prop}

/-! ## The judgements -/

/-- A program leaves no new exception pending and does nothing but read and compute. -/
def Prepares (known : Prop) (x : Exec H α) : Prop :=
  ∀ m : Machine H, (known → m.fpu.WellFormed) →
    Ends x m
      (fun _ m' => (known → m'.fpu.WellFormed) ∧ m.Undisturbed m' ∧
        m'.fpu.isPending = m.fpu.isPending)
      (fun _ m' => (known → m'.fpu.WellFormed) ∧ m'.fpu.isPending = m.fpu.isPending)

/-- What an instruction may leave: unless it is calm, anything; otherwise a new exception is
pending only when nothing was stored, pushed, popped or emptied. -/
structure Settling (known calm : Prop) (m m' : Machine H) : Prop where
  wellFormed : known → m'.fpu.WellFormed
  stopped : calm → m.fpu.isPending = false → m'.fpu.isPending = true → m.Undisturbed m'

/-- A program that is completed leaves what an instruction may leave, and one that faults leaves
no new exception pending. -/
def Settles (known calm : Prop) (x : Exec H α) : Prop :=
  ∀ m : Machine H, (known → m.fpu.WellFormed) →
    Ends x m (fun _ m' => Settling known calm m m')
      (fun _ m' => (known → m'.fpu.WellFormed) ∧ m'.fpu.isPending = m.fpu.isPending)

/-- A machine on which no new exception is pending. -/
theorem Settling.of_pending {m m' : Machine H} (hw : known → m'.fpu.WellFormed)
    (hp : m'.fpu.isPending = m.fpu.isPending) : Settling known calm m m' where
  wellFormed := hw
  stopped _ h h' := by rw [hp, h] at h'; cases h'

theorem Settling.after {m m₁ m₂ : Machine H} (hu : m.Undisturbed m₁)
    (hp : m₁.fpu.isPending = m.fpu.isPending) (h : Settling known calm m₁ m₂) :
    Settling known calm m m₂ where
  wellFormed := h.wellFormed
  stopped hc h₁ h₂ := hu.trans (h.stopped hc (hp.trans h₁) h₂)

/-- What only prepares an instruction stores nothing, and leaves the stack alone. -/
theorem Prepares.settles {x : Exec H α} (hx : Prepares known x) : Settles known calm x :=
  fun m hm => (hx m hm).mono (fun _ _ h => .of_pending h.1 h.2.2) fun _ _ h => h

namespace Prepares

theorem bind {x : Exec H β} {k : β → Exec H α} (hx : Prepares known x)
    (hk : ∀ b, Prepares known (k b)) : Prepares known (x >>= k) := by
  intro m hm
  rw [ends_bind]
  refine (hx m hm).mono ?_ fun _ _ h => h
  rintro b m₁ ⟨hw, hu, hp⟩
  refine (hk b m₁ hw).mono ?_ ?_
  · rintro a m₂ ⟨hw₂, hu₂, hp₂⟩
    exact ⟨hw₂, hu.trans hu₂, hp₂.trans hp⟩
  · rintro f m₂ ⟨hw₂, hp₂⟩
    exact ⟨hw₂, hp₂.trans hp⟩

theorem pure (a : α) : Prepares known (Pure.pure a : Exec H α) := fun m hm => ⟨hm, .refl m, rfl⟩

theorem view (f : Processor → α) : Prepares known (Exec.view f : Exec H α) :=
  fun m hm => ⟨hm, .refl m, rfl⟩

theorem throw (f : Fault) : Prepares known (MonadExcept.throw f : Exec H α) :=
  fun _ hm => ⟨hm, rfl⟩

theorem ite {c : Prop} [Decidable c] {x y : Exec H α} (hx : Prepares known x)
    (hy : Prepares known y) : Prepares known (if c then x else y) := by
  split
  · exact hx
  · exact hy

theorem updateFpu {g : Fpu → Fpu} (hg : ∀ f : Fpu, f.Gentle known (g f)) :
    Prepares known (Exec.updateFpu g : Exec H Unit) :=
  fun m hm => ⟨(hg m.fpu).wellFormed hm, ⟨rfl, (hg m.fpu).top, (hg m.fpu).tags⟩,
    (hg m.fpu).pending⟩

end Prepares

namespace Settles

/-- An instruction settles when its preparation is over and the rest settles. -/
theorem after {x : Exec H β} {k : β → Exec H α} (hx : Prepares known x)
    (hk : ∀ b, Settles known calm (k b)) : Settles known calm (x >>= k) := by
  intro m hm
  rw [ends_bind]
  refine (hx m hm).mono ?_ fun _ _ h => h
  rintro b m₁ ⟨hw, hu, hp⟩
  refine (hk b m₁ hw).mono (fun _ _ h => h.after hu hp) ?_
  rintro f m₂ ⟨hw₂, hp₂⟩
  exact ⟨hw₂, hp₂.trans hp⟩

/-- A program that may be stopped is careful until then. -/
theorem toExec {x : FloatExec H Unit} (hx : FloatExec.Final known x) :
    Settles known calm x.toExec := by
  intro m hm
  rw [FloatExec.toExec, ends_bind]
  refine (hx m hm).mono ?_ fun _ _ h => h
  rintro a? m' ⟨hw, hstop, hdone⟩
  cases a? with
  | none => exact ⟨hw, fun _ _ _ => hstop rfl⟩
  | some _ => exact .of_pending hw (hdone rfl)

/-- A change of the unit after which no exception is pending.  A program that spares the unit
may run before. -/
theorem thenUpdateFpu {x : Exec H β} {g : Fpu → Fpu}
    (hx : ∀ m, Ends x m (fun _ m' => m'.fpu = m.fpu) (fun _ m' => m'.fpu = m.fpu))
    (hw : ∀ f : Fpu, f.WellFormed → (g f).WellFormed) (hp : ∀ f : Fpu, (g f).isPending = false) :
    Settles known calm (do let _ ← x; Exec.updateFpu g) := by
  intro m hm
  rw [ends_bind]
  refine (hx m).mono (fun _ m₁ hf => ?_) fun _ m₁ hf => ?_
  · have hnone : (g m₁.fpu).isPending = false := hp m₁.fpu
    exact ⟨fun hk => hw _ (hf ▸ hm hk), fun _ _ h => absurd h (by simp [hnone])⟩
  · exact ⟨hf ▸ hm, congrArg Fpu.isPending hf⟩

end Settles

/-! ## Preparing an instruction -/

section Preparing

variable [Host H]

/-- A program that changes nothing that its effect could name. -/
theorem HasEffect.prepares {e : Effect} {x : Exec H α} (hx : HasEffect e x) (he : e.SparesFloat)
    (hn : e.answer = []) : Prepares known x := by
  intro m hm
  have hall : CoversSegments (fun _ _ _ => True) m := fun _ _ _ _ _ => trivial
  refine ((hx.fpu_eq he m).and (hx hall)).mono ?_ ?_
  · rintro _ m' ⟨hf, ha⟩
    rw [hn] at ha
    obtain ⟨eip, log, rfl⟩ := ha.exists_moved
    exact ⟨hm, ⟨rfl, rfl, fun _ h => h⟩, rfl⟩
  · rintro _ m' ⟨hf, -⟩
    rw [hf]
    exact ⟨hm, rfl⟩

/-- A program whose effect spares the unit leaves no new exception pending. -/
theorem HasEffect.settles {e : Effect} {x : Exec H α} (hx : HasEffect e x) (he : e.SparesFloat) :
    Settles known calm x := by
  intro m hm
  refine (hx.fpu_eq he m).mono (fun _ m' hf => ?_) fun _ m' hf => ?_
  · exact .of_pending (hf ▸ hm) (congrArg Fpu.isPending hf)
  · exact ⟨hf ▸ hm, congrArg Fpu.isPending hf⟩

theorem checkAvailable_prepares (p : Prefixes) :
    Prepares known (checkAvailable p : Exec H Unit) :=
  (checkAvailable_hasEffect p).prepares (by decide) rfl

/-- The check for a pending exception clears condition one at most. -/
theorem checkReady_prepares (p : Prefixes) : Prepares known (checkReady p : Exec H Unit) := by
  have hclear : Prepares known (updateFpu (·.setCondition Status.c1 false) : Exec H Unit) :=
    .updateFpu fun f => f.gentle_setCondition (by decide) false
  refine .bind (checkAvailable_prepares p) fun _ => .bind (.view _) fun pending => ?_
  exact .ite (.bind (.throw _) fun _ => hclear) hclear

theorem memoryOperand_prepares (p : Prefixes) (mb : ModeByte) :
    Prepares known (memoryOperand p mb : Exec H (Seg × Dword)) := by
  refine .bind ((operand_hasEffect p mb).prepares (by decide) rfl) fun place => ?_
  cases place with
  | memory seg offset => exact .pure _
  | register r => exact .throw _

theorem checkLayout_prepares (p : Prefixes) (feature : Feature) :
    Prepares known (checkLayout p feature : Exec H Unit) :=
  (checkLayout_hasEffect p feature).prepares (by decide) rfl

/-! ## Instructions -/

/-- An instruction without an operand in memory: it is checked, and then its program runs. -/
theorem whenReady_settles (p : Prefixes) {action : FloatExec H Unit}
    (ha : FloatExec.Final known action) : Settles known calm (whenReady p action) :=
  .after (checkReady_prepares p) fun _ => .toExec ha

/-- A number that is read from memory has an encoding, whatever the bytes are. -/
theorem withNumber_settles (p : Prefixes) (mb : ModeByte) (format : NumberFormat)
    {action : FloatExec.Loaded → FloatExec H Unit}
    (ha : ∀ loaded : FloatExec.Loaded, loaded.value.HasEncoding →
      FloatExec.Final known (action loaded)) :
    Settles known calm (withNumber p mb format action) := by
  refine .after (checkReady_prepares p) fun _ => ?_
  refine .after (memoryOperand_prepares p mb) fun (seg, offset) => ?_
  simp only [FloatExec.readNumber, bind_assoc, pure_bind]
  refine .after ((loadBytes_observes _ _ _).hasEffect.prepares (by decide) rfl) fun bytes => ?_
  exact .toExec (ha _ (FloatExec.ofBytes_hasEncoding format bytes))

theorem withPlace_settles (p : Prefixes) (mb : ModeByte)
    {action : Seg → Dword → FloatExec H Unit}
    (ha : ∀ seg offset, FloatExec.Final known (action seg offset)) :
    Settles known calm (withPlace p mb action) := by
  refine .after (checkReady_prepares p) fun _ => .after (memoryOperand_prepares p mb) fun place => ?_
  exact .toExec (ha place.1 place.2)

/-- Another control word may leave an exception pending that was masked before. -/
theorem loadControl_settles (p : Prefixes) (mb : ModeByte) :
    Settles known calm (loadControl p mb : Exec H Unit) := by
  refine .after (checkReady_prepares p) fun _ => .after (memoryOperand_prepares p mb) fun place => ?_
  refine .after ((load_observes .word place.1 place.2).hasEffect.prepares (by decide) rfl) ?_
  intro word m hm
  exact ⟨fun hk => (hm hk).loadControl _, fun _ _ _ => ⟨rfl, rfl, fun _ h => h⟩⟩

theorem storeWord_settles (p : Prefixes) (mb : ModeByte) (word : Fpu → Word) :
    Settles known calm (storeWord p mb word : Exec H Unit) := by
  refine .after (checkAvailable_prepares p) fun _ => ?_
  refine .after (memoryOperand_prepares p mb) fun (seg, offset) => .after (.view _) fun value => ?_
  exact (store_hasEffect .word seg offset _).settles (by decide)

theorem saveState_settles (p : Prefixes) (mb : ModeByte) :
    Settles known calm (saveState p mb : Exec H Unit) := by
  refine .after (checkAvailable_prepares p) fun _ => ?_
  refine .after (memoryOperand_prepares p mb) fun (seg, offset) => ?_
  refine .after (checkLayout_prepares p _) fun _ => .after (.view _) fun image => ?_
  exact .thenUpdateFpu ((storeBytes_hasEffect seg offset image).fpu_eq (by decide))
    (fun f hf => hf.reinitialize hf.opcode_le) fun f => Fpu.isPending_initial

/-- A state that is restored may have an exception pending. -/
theorem restoreState_settles (p : Prefixes) (mb : ModeByte) :
    Settles known False (restoreState p mb : Exec H Unit) := by
  refine .after (checkReady_prepares p) fun _ => .after (memoryOperand_prepares p mb) fun place => ?_
  refine .after (checkLayout_prepares p _) fun _ => ?_
  refine .after ((loadBytes_observes place.1 place.2 _).hasEffect.prepares (by decide) rfl) ?_
  intro image m _
  exact ⟨fun _ => .loadImage image, False.elim⟩

theorem statusToAccumulator_settles (p : Prefixes) :
    Settles known calm (statusToAccumulator p : Exec H Unit) := by
  refine .after (checkAvailable_prepares p) fun _ m hm => ?_
  exact .of_pending hm rfl

open FloatExec in
/-- An instruction that the unit runs, and only restoring a state is not calm. -/
theorem runFloat_settles (p : Prefixes) (mb : ModeByte) (i : FloatInstruction) :
    Settles known (i ≠ .restore) (runFloat p mb i : Exec H Unit) := by
  -- What does not wait for exceptions leaves none pending.
  have available {g : Fpu → Fpu} (hw : ∀ f : Fpu, f.WellFormed → (g f).WellFormed)
      (hp : ∀ f : Fpu, (g f).isPending = false) :
      Settles known (i ≠ .restore) (do checkAvailable p; updateFpu g : Exec H Unit) :=
    .thenUpdateFpu ((checkAvailable_hasEffect p).fpu_eq (by decide)) hw hp
  cases i with
  | arithMemory op format =>
    exact withNumber_settles p mb format fun loaded hl => (arithLoaded_careful p op fun _ => hl).final
  | arithTop op i => exact whenReady_settles p (arithTop_careful p op i).final
  | arithInto op i pops => exact whenReady_settles p (arithInto_final p op i pops)
  | compareMemory format pops =>
    exact withNumber_settles p mb format fun loaded _ => compareLoaded_final p loaded pops
  | compare i pops => exact whenReady_settles p (compare_final p i pops)
  | test => exact whenReady_settles p (test_careful p).final
  | examine => exact whenReady_settles p examine_careful.final
  | neg => exact whenReady_settles p (mapTop_careful p fun x => x.neg_hasEncoding_iff.2).final
  | abs => exact whenReady_settles p (mapTop_careful p fun x => x.abs_hasEncoding_iff.2).final
  | sqrt => exact whenReady_settles p (sqrt_careful p).final
  | roundToIntegral => exact whenReady_settles p (roundToIntegral_careful p).final
  | scale => exact whenReady_settles p (scale_careful p).final
  | remainder => exact whenReady_settles p (remainder_careful p).final
  | powerLessOne => exact whenReady_settles p (powerLessOne_careful p).final
  | trig f => exact whenReady_settles p (trig_final p f)
  | timesLogarithm =>
    exact whenReady_settles p (combine_final p fun _ _ => Extended.timesLogarithm_hasEncoding)
  | angle => exact whenReady_settles p (combine_final p fun _ _ => Extended.angle_hasEncoding)
  | nothing => exact (checkReady_prepares p).settles
  | load format =>
    exact withNumber_settles p mb format fun loaded hl => load_final p format fun _ => hl
  | loadRegister i => exact whenReady_settles p (loadRegister_final p i)
  | loadConstant c => exact whenReady_settles p (loadConstant_final p c)
  | storeReal format pops =>
    exact withPlace_settles p mb fun seg offset => storeReal_final p seg offset format pops
  | storeInt format pops =>
    exact withPlace_settles p mb fun seg offset => storeInt_final p seg offset format pops
  | storeDecimal => exact withPlace_settles p mb (storeDecimal_final p)
  | storeRegister i pops => exact whenReady_settles p (storeRegister_final p i pops)
  | exchange i => exact whenReady_settles p (exchange_careful p i).final
  | free i =>
    exact whenReady_settles p (Unstopped.final (.update fun f => f.settled_setTag i .empty))
  | loadControl => exact loadControl_settles p mb
  | storeControl => exact storeWord_settles p mb Fpu.control
  | storeStatus => exact storeWord_settles p mb Fpu.statusWord
  | statusToAccumulator => exact statusToAccumulator_settles p
  | save => exact saveState_settles p mb
  | restore =>
    intro m hm
    exact (restoreState_settles p mb m hm).mono (fun _ _ h => ⟨h.wellFormed, fun hne => absurd rfl hne⟩)
      fun _ _ h => h
  | initState => exact available (fun f hf => hf.reinitialize (by decide)) fun f => Fpu.isPending_initial
  | clearExceptions => exact available (fun f hf => hf.clearExceptions) Fpu.isPending_clearExceptions

omit [Host H] in
/-- Remembering an instruction comes last.  Stopped or not, nothing but pointers changes. -/
theorem Settles.thenRemember {x : Exec H Unit} (hx : Settles known calm x) (remembers : Bool)
    (p : Prefixes) (number : BitVec 3) (mb : ModeByte) :
    Settles known calm (do x; if remembers then remember p number mb : Exec H Unit) := by
  have hopcode : ((number ++ mb.toByte).setWidth 16 : Word) ≤ 0x7FF := by
    change BitVec.toNat _ ≤ 0x7FF
    rw [BitVec.toNat_setWidth]
    exact Nat.le_trans (Nat.mod_le _ _) (Nat.le_of_lt_succ (BitVec.isLt _))
  intro m hm
  rw [ends_bind]
  refine (hx m hm).mono (fun _ m₁ h => ?_) fun _ _ h => h
  cases remembers with
  | false => exact h
  | true =>
    refine ⟨fun hk => (h.wellFormed hk).remember hopcode _ _, fun hc hp hp' => ?_⟩
    have hu := h.stopped hc hp hp'
    exact ⟨hu.host, hu.top, hu.tags⟩

/-- An escape opcode, unless its mode byte makes it restore a state. -/
theorem escape_ends (p : Prefixes) (number : BitVec 3) {m : Machine H}
    (hm : known → m.fpu.WellFormed) :
    Ends (escape p number) m
      (fun _ m' => Settling known
        (∀ b, value? fetch8 m = some b → FloatInstruction.decode number (.ofByte b) ≠ .ok .restore)
        m m')
      (fun _ m' => (known → m'.fpu.WellFormed) ∧ m'.fpu.isPending = m.fpu.isPending) := by
  have hfetch : Prepares known (fetch8 : Exec H Byte) := fetch8_hasEffect.prepares (by decide) rfl
  rw [escape, ends_bind]
  refine (hfetch m hm).value.mono ?_ fun _ _ h => h
  rintro b m₁ ⟨hv, hw, hu, hp⟩
  dsimp only
  split
  next fault _ => exact ⟨hw, hp⟩
  next instruction hd =>
    have hruns := (runFloat_settles p (.ofByte b) instruction).thenRemember
      (!instruction.isControl) p number (.ofByte b) m₁ hw
    refine hruns.mono (fun _ m₂ h => ?_) fun _ m₂ h => ⟨h.1, h.2.trans hp⟩
    have hafter := h.after hu hp
    refine ⟨hafter.wellFormed, fun hc => hafter.stopped fun hr => ?_⟩
    exact hc b hv (hr ▸ hd)

end Preparing

end Exec

end Ia32
