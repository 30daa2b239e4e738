import Ia32.Proofs.StepCases

/-!
# Steps as runs of instructions

A step takes an instruction from the code, which moves nothing but the
instruction pointer and the log, and runs it.  So a statement about a step
follows from one about `runInstruction` on the machine after the fetch.

Far transfers load segment registers, in real mode without any check.  In every
mode they leave alone what the other instructions leave alone: the footprint of
a completed instruction bounds all that it changes besides the segment registers.
-/

namespace Ia32

open Host Exec

variable {H : Type}

/-! ## Results of runs -/

namespace Exec

variable {α β : Type} {m m' : Machine H} {ok : α → Machine H → Prop}
  {err : Fault → Machine H → Prop}

theorem Ends.of_ok {x : Exec H α} {a : α} (h : Ends x m ok err) (hx : x.run m = .ok a m') :
    ok a m' := by
  simpa only [Ends, hx] using h

theorem Ends.of_error {x : Exec H α} {f : Fault} (h : Ends x m ok err)
    (hx : x.run m = .error f m') : err f m' := by
  simpa only [Ends, hx] using h

theorem value?_of_ok {x : Exec H α} {a : α} (hx : x.run m = .ok a m') : value? x m = some a := by
  rw [value?, hx]

theorem value?_of_error {x : Exec H α} {f : Fault} (hx : x.run m = .error f m') :
    value? x m = none := by
  rw [value?, hx]

/-- What follows a program that has an answer decides the value of the sequence. -/
theorem value?_bind_of_ok {x : Exec H β} {b : β} (hx : x.run m = .ok b m') (k : β → Exec H α) :
    value? (x >>= k) m = value? (k b) m' := by
  rw [value?, EStateM.run_bind, hx]
  rfl

end Exec

variable [Host H] {m m₁ m₂ m' : Machine H} {p : Prefixes} {i : Instruction}

/-! ## Fetching and running -/

/-- A machine takes an instruction from the code, with its markers. -/
structure Machine.Fetches (m : Machine H) (p : Prefixes) (i : Instruction) (m₁ : Machine H) :
    Prop where
  run : fetchInstruction.run m = .ok (some ⟨p, .ok i⟩) m₁
  moved : ∃ eip log, m₁ = { m with eip := eip, log := log }

theorem Machine.Fetches.instruction? (h : m.Fetches p i m₁) : m.instruction? = some (p, i) := by
  rw [Machine.instruction?, value?_of_ok h.run]

/-- How a step goes: an instruction is fetched and run, or none can be fetched. -/
inductive Machine.StepRuns (m : Machine H) : Machine.StepEnd → Machine H → Prop where
  | completed {p : Prefixes} {i : Instruction} {m₁ m₂ : Machine H} :
    m.Fetches p i m₁ →
    (runInstruction p i).run m₁ = .ok () m₂ →
    StepRuns m .completed { m₂ with retired := m₂.retired + 1 }
  | fault {p : Prefixes} {i : Instruction} {m₁ m₂ : Machine H} {f : Fault} {log : Log} :
    m.Fetches p i m₁ →
    (runInstruction p i).run m₁ = .error f m₂ →
    StepRuns m (.fault f) { m₂ with eip := m.eip, log := log }
  | unfetched {f : Fault} {log : Log} :
    m.instruction? = none →
    StepRuns m (.fault f) { m with log := log }
  | never {eip : Dword} {log : Log} :
    m.instruction? = none →
    StepRuns m .never { m with eip := eip, log := log }

/-- A program whose answer changes nothing moves the instruction pointer and the log. -/
theorem Exec.HasEffect.moved {α : Type} {e : Effect} {x : Exec H α} (hx : HasEffect e x)
    (he : e.answer = []) {a : α} (hr : x.run m = .ok a m₁) :
    ∃ eip log, m₁ = { m with eip := eip, log := log } := by
  have hall : CoversSegments (fun _ _ _ => True) m := fun _ _ _ _ _ => trivial
  have hagree := (hx hall).of_ok hr
  rw [he] at hagree
  exact hagree.exists_moved

/-- Fetching an instruction moves the instruction pointer and the log, whether it succeeds or
not. -/
theorem Exec.fetchInstruction_moves (m : Machine H) :
    Ends fetchInstruction m (fun _ m₁ => ∃ eip log, m₁ = { m with eip := eip, log := log })
      (fun _ m₁ => ∃ eip log, m₁ = { m with eip := eip, log := log }) := by
  have hc : CoversSegments (fun _ _ _ => True) m := fun _ _ _ _ _ => trivial
  refine (fetchInstruction_hasEffect hc).mono (fun _ _ h => h.exists_moved) fun _ _ h => ?_
  obtain ⟨S, ⟨⟩, ha⟩ := h.fault
  exact ha.exists_moved

theorem Machine.step_runs (m : Machine H) : m.StepRuns m.step.1 m.step.2 := by
  have hmoves := fetchInstruction_moves m
  unfold step execute
  rw [EStateM.run_bind]
  cases hf : fetchInstruction.run m with
  | error f m₁ =>
    obtain ⟨eip, log, rfl⟩ := hmoves.of_error hf
    obtain ⟨log', hlog⟩ := exists_afterFault { m with eip := eip, log := log } m.eip f
    simp only [hlog]
    exact .unfetched (by rw [instruction?, value?_of_error hf])
  | ok decoded m₁ =>
    have hmoved := hmoves.of_ok hf
    rcases decoded with _ | ⟨p, feature | i⟩
    · obtain ⟨eip, log, rfl⟩ := hmoved
      exact .never (by rw [instruction?, value?_of_ok hf])
    · obtain ⟨eip, log, rfl⟩ := hmoved
      exact .unfetched (by rw [instruction?, value?_of_ok hf])
    · have hfetch : m.Fetches p i m₁ := ⟨hf, hmoved⟩
      simp only [EStateM.run_bind]
      cases hr : (runInstruction p i).run m₁ with
      | ok _ m₂ => exact .completed hfetch hr
      | error f m₂ =>
        obtain ⟨log, hlog⟩ := m₂.exists_afterFault m.eip f
        simp only [hlog]
        exact .fault hfetch hr

/-- A step whose instruction succeeds is completed. -/
theorem Machine.step_of_run (hf : m.Fetches p i m₁) (hr : (runInstruction p i).run m₁ = .ok () m₂) :
    m.step = (.completed, { m₂ with retired := m₂.retired + 1 }) := by
  have hexec : execute.run m = .ok true m₂ := by
    rw [execute, run_bind_of_ok hf.run]
    exact run_bind_of_ok hr _
  rw [step, hexec]

/-- A step whose instruction faults goes back to the start of the instruction. -/
theorem Machine.exists_step_of_error {f : Fault} (hf : m.Fetches p i m₁)
    (hr : (runInstruction p i).run m₁ = .error f m₂) :
    ∃ log, m.step = (.fault f, { m₂ with eip := m.eip, log := log }) := by
  have hexec : execute.run m = .error f m₂ := by
    rw [execute, run_bind_of_ok hf.run, EStateM.run_bind, hr]
  obtain ⟨log, hlog⟩ := m₂.exists_afterFault m.eip f
  refine ⟨log, ?_⟩
  rw [step, hexec, ← hlog]

/-- In a completed step the instruction has succeeded. -/
theorem Machine.exists_run_of_completed (hi : m.instruction? = some (p, i))
    (h : m.step.1 = .completed) :
    ∃ m₁ m₂, m.Fetches p i m₁ ∧ (runInstruction p i).run m₁ = .ok () m₂ ∧
      m.step.2 = { m₂ with retired := m₂.retired + 1 } := by
  have hruns := m.step_runs
  rw [h] at hruns
  generalize m.step.2 = m' at hruns
  cases hruns with
  | completed hf hr =>
    cases hf.instruction?.symm.trans hi
    exact ⟨_, _, hf, hr, rfl⟩

/-- In a step that faults at an instruction, the instruction has faulted. -/
theorem Machine.exists_run_of_fault {f : Fault} (hi : m.instruction? = some (p, i))
    (h : m.step.1 = .fault f) :
    ∃ m₁ m₂ log, m.Fetches p i m₁ ∧ (runInstruction p i).run m₁ = .error f m₂ ∧
      m.step.2 = { m₂ with eip := m.eip, log := log } := by
  have hruns := m.step_runs
  rw [h] at hruns
  generalize m.step.2 = m' at hruns
  cases hruns with
  | fault hf hr =>
    cases hf.instruction?.symm.trans hi
    exact ⟨_, _, _, hf, hr, rfl⟩
  | unfetched hn => cases hn.symm.trans hi

/-! ## What completed instructions leave alone -/

/-- Two machines agree outside a footprint and the segment registers. -/
def AgreeButSegments (S : Footprint) (m m' : Machine H) : Prop :=
  Agree (fun _ _ _ => True) S m { m' with segs := m.segs }

namespace AgreeButSegments

variable {S T : Footprint}

theorem of_agree (h : Agree (fun _ _ _ => True) S m m') : AgreeButSegments S m m' := by
  have hsegs : { m' with segs := m.segs } = m' := by rw [← h.segs]
  unfold AgreeButSegments
  rw [hsegs]
  exact h

theorem mono (h : AgreeButSegments S m m') (hs : S ⊆ T) : AgreeButSegments T m m' := Agree.mono h hs

theorem trans (h : AgreeButSegments S m m₁) (h' : AgreeButSegments S m₁ m') :
    AgreeButSegments S m m' :=
  Agree.trans h { h' with segs := rfl }

end AgreeButSegments

theorem Loads.agreeButSegments {segs : Segments} {eip : Dword}
    (h : Loads (fun _ _ _ => True) m m' segs eip) :
    AgreeButSegments [.registers, .stackPointer, .memory] m m' :=
  h.rest

theorem CompletesFar.agreeButSegments {far : FarInstruction}
    (h : CompletesFar (fun _ _ _ => True) m far m') :
    AgreeButSegments [.registers, .stackPointer, .memory] m m' := by
  cases h with
  | direct _ hload => exact hload.agreeButSegments
  | gate _ hload => exact hload.agreeButSegments
  | inner _ hload => exact hload.agreeButSegments
  | same _ _ hload => exact hload.agreeButSegments
  | outer _ hload => exact hload.agreeButSegments

/-- When every store is permitted, those of a far instruction are. -/
theorem PermitsFar.of_all (m : Machine H) (far : FarInstruction) :
    PermitsFar (fun _ _ _ => True) m far :=
  ⟨fun _ _ _ _ _ => trivial, fun _ _ _ _ _ => trivial, fun _ _ _ _ _ => trivial⟩

namespace Exec

variable {α β : Type} {S T : Footprint}

/-- A program that is completed changes no more than a footprint and the segment registers. -/
def Touches (S : Footprint) (x : Exec H α) : Prop :=
  ∀ m, Ends x m (fun _ m' => AgreeButSegments S m m') fun _ _ => True

theorem HasEffect.touches {e : Effect} {x : Exec H α} (hx : HasEffect e x) :
    Touches e.answer x := fun _ =>
  (hx fun _ _ _ _ _ => trivial).mono (fun _ _ h => .of_agree h) fun _ _ _ => trivial

namespace Touches

theorem mono {x : Exec H α} (hx : Touches S x) (hs : S ⊆ T) : Touches T x :=
  fun m => (hx m).mono (fun _ _ h => h.mono hs) fun _ _ _ => trivial

theorem bind {x : Exec H β} {k : β → Exec H α} (hx : Touches S x) (hk : ∀ b, Touches S (k b)) :
    Touches S (x >>= k) := by
  intro m
  rw [ends_bind]
  refine (hx m).mono (fun b m₁ h₁ => ?_) fun _ _ _ => trivial
  exact (hk b m₁).mono (fun _ _ h => h₁.trans h) fun _ _ _ => trivial

/-- A program after one that has an effect. -/
theorem after {e : Effect} {x : Exec H β} {k : β → Exec H α} (hx : HasEffect e x)
    (hs : e.answer ⊆ S) (hk : ∀ b, Touches S (k b)) : Touches S (x >>= k) :=
  bind (hx.touches.mono hs) hk

/-- A program after an observation. -/
theorem observing {x : Exec H β} {k : β → Exec H α} (hx : Observes x)
    (hk : ∀ b, Touches S (k b)) : Touches S (x >>= k) :=
  after hx.hasEffect (List.nil_subset S) hk

end Touches

/-! ## Far transfers in every mode -/

theorem enterReal_touches (selector : Word) (offset : Dword) :
    Touches S (enterReal selector offset : Exec H Unit) :=
  fun m => (.moved S m offset m.log : Agree (fun _ _ _ => True) S m { m with eip := offset })

theorem transferReal_touches (transfer : Transfer) (w : Width) (selector : Word) (offset : Dword) :
    Touches [.stackPointer, .memory] (transferReal transfer w selector offset : Exec H Unit) := by
  have hcheck : Observes (checkRealOffset offset : Exec H Unit) := .ite (.throw rfl) (.pure _)
  cases transfer with
  | jump => exact .observing hcheck fun _ => enterReal_touches selector offset
  | call =>
    refine .observing (reserve_observes (2 * w.bytes)) fun top => .observing hcheck fun _ => ?_
    exact .after (storeReturn_hasEffect w top) (by decide) fun _ =>
      enterReal_touches selector offset

theorem returnReal_touches (w : Width) : Touches [.stackPointer] (returnReal w : Exec H Unit) := by
  refine .observing (frameValue_observes w 0) fun offset => ?_
  refine .observing (frameValue_observes w 1) fun selector => ?_
  have hsp : HasEffect (.changes [.stackPointer])
      (update fun s => s.setSp (s.spPlus (BitVec.ofNat 32 (2 * w.bytes))) : Exec H Unit) :=
    .update fun _ m => setSp_agree m _
  exact .after hsp (List.Subset.refl _) fun _ => enterReal_touches _ offset

theorem transferFar_touches (transfer : Transfer) (w : Width) (selector : Word) (offset : Dword) :
    Touches [.registers, .stackPointer, .memory]
      (transferFar transfer w selector offset : Exec H Unit) := by
  intro m
  rw [transferFar, ends_bind, ends_view, ends_ite]
  constructor
  · intro _
    exact (transferProtected_ends (.of_all m (.transfer transfer w ⟨selector, offset⟩))).mono
      (fun _ _ h => h.agreeButSegments) fun _ _ _ => trivial
  · intro _
    exact (transferReal_touches transfer w selector offset).mono (by decide) m

theorem returnFar_touches (w : Width) (released : Word) :
    Touches [.registers, .stackPointer, .memory] (returnFar w released : Exec H Unit) := by
  intro m
  rw [returnFar, ends_bind, ends_view, ends_ite]
  constructor
  · intro _
    exact (returnProtected_ends (.of_all m (.ret w released))).mono
      (fun _ _ h => h.agreeButSegments) fun _ _ _ => trivial
  · intro _
    exact (returnReal_touches w).mono (by decide) m

/-! ## Instructions in every mode -/

theorem indirectOperand_touches (p : Prefixes) (w : Width) (mb : ModeByte) (place : Operand) :
    Touches Effect.ordinary.answer (indirectOperand p w mb place : Exec H Unit) := by
  have far : ∀ transfer,
      Touches Effect.ordinary.answer (farIndirect p w transfer place : Exec H Unit) :=
    fun transfer => .after (loadFarTarget_hasEffect p w place) (List.nil_subset _) fun dest =>
      (transferFar_touches transfer w dest.selector dest.offset).mono (by decide)
  unfold indirectOperand
  split
  · exact (modifyOperand_hasEffect p w place (setsArithmetic_increment w)).touches.mono (by decide)
  · exact (modifyOperand_hasEffect p w place (setsArithmetic_decrement w)).touches.mono (by decide)
  · exact (nearIndirect_hasEffect p w .call place).touches.mono (by decide)
  · exact far .call
  · exact (nearIndirect_hasEffect p w .jump place).touches.mono (by decide)
  · exact far .jump
  · exact (pushOperand_hasEffect p w place).touches.mono (by decide)
  · exact (HasEffect.throw).touches.mono (by decide)

/-- A completed instruction changes no more than its footprint and the segment registers. -/
theorem runInstruction_touches (p : Prefixes) (i : Instruction) :
    Touches i.effect.answer (runInstruction p i : Exec H Unit) := by
  have wide : ∀ {run : Width → Exec H Unit}, (∀ w, Touches Effect.ordinary.answer (run w)) →
      Touches Effect.ordinary.answer (do run (← operandWidth p)) :=
    fun hr => .observing (.view _) hr
  cases i with
  | indirectGroup =>
    refine wide fun w => .after (fetchOperand_hasEffect p) (List.nil_subset _) fun (mb, place) => ?_
    exact indirectOperand_touches p w mb place
  | far transfer =>
    refine wide fun w => .after (fetchFarTarget_hasEffect p w) (List.nil_subset _) fun dest => ?_
    exact (transferFar_touches transfer w dest.selector dest.offset).mono (by decide)
  | retFar =>
    refine wide fun w => .after (checkLock_hasEffect p) (List.nil_subset _) fun _ => ?_
    exact (returnFar_touches w 0).mono (by decide)
  | retFarReleasing =>
    refine wide fun w => .after fetchReleased_hasEffect (List.nil_subset _) fun bytes => ?_
    refine .after (checkLock_hasEffect p) (List.nil_subset _) fun _ => ?_
    refine .bind ((returnFar_touches w bytes).mono (by decide)) fun _ => ?_
    exact (release_hasEffect bytes).touches.mono (by decide)
  | _ => exact (runInstruction_hasEffect p rfl).touches

/-- An instruction that faults changes no more than the footprint of its fault, or than a far
transfer may have stored. -/
theorem runInstruction_faults (p : Prefixes) (i : Instruction) (m : Machine H) :
    Ends (runInstruction p i) m (fun _ _ => True) (fun f m' =>
      i.effect.Faults (fun _ _ _ => True) m f m' ∨
        Effect.transfers.Faults (fun _ _ _ => True) m f m') := by
  refine (runInstruction_ends p i (fun _ _ _ _ _ => trivial) fun {far} _ => .of_all m far).mono
    (fun _ _ _ => trivial) fun f m' h => ?_
  cases h with
  | near he _ => exact .inl he
  | far _ he => exact .inr he

end Exec

/-- A step changes no more than some footprint and the segment registers, in every mode and
however it ends. -/
theorem Machine.step_agrees (m : Machine H) :
    ∃ S m₁ eip log retired, m.step.2 = { m₁ with eip := eip, log := log, retired := retired } ∧
      AgreeButSegments S m m₁ := by
  have hruns := m.step_runs
  generalize m.step.1 = ending, m.step.2 = m' at hruns ⊢
  have hmoved : ∀ {m₁ : Machine H}, (∃ eip log, m₁ = { m with eip := eip, log := log }) →
      ∀ {S m₂}, AgreeButSegments S m₁ m₂ → AgreeButSegments S m m₂ := by
    rintro _ ⟨eip, log, rfl⟩ S m₂ h
    exact .trans (.of_agree (.moved S m eip log)) h
  cases hruns with
  | completed hfetch hr =>
    exact ⟨_, _, _, _, _, rfl, hmoved hfetch.moved ((runInstruction_touches _ _ _).of_ok hr)⟩
  | fault hfetch hr =>
    have ha : ∃ S, Agree (fun _ _ _ => True) S _ _ :=
      ((runInstruction_faults _ _ _).of_error hr).elim (fun he => he.fault.imp fun _ h => h.2)
        fun he => he.fault.imp fun _ h => h.2
    obtain ⟨S, ha⟩ := ha
    exact ⟨S, _, _, _, _, rfl, hmoved hfetch.moved (.of_agree ha)⟩
  | unfetched _ => exact ⟨[], m, m.eip, _, m.retired, rfl, .of_agree (.refl [] m)⟩
  | never _ => exact ⟨[], m, _, _, m.retired, rfl, .of_agree (.refl [] m)⟩

end Ia32
