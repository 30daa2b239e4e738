import Ia32.Proofs.InstructionEffects
import Ia32.Step

/-!
# What a step does

A step fetches an instruction and runs it.  It is completed, it faults, or there
are only markers.  In each case what has changed is bound by the effect of the
instruction, or it is a far instruction and what it has loaded is known.  The
instruction and the operands of a far instruction are named from the machine
before the step.
-/

namespace Ia32

open Host Exec

variable {H : Type} [Host H] {permits : H → Dword → List Byte → Prop} {m m' : Machine H}

/-! ## Fetching -/

namespace Exec

/-- Prefixes are read from the code until an opcode comes, or the limit. -/
theorem fetchOpening_hasEffect (limit : Nat) (p : Prefixes) :
    HasEffect .reads (fetchOpening limit p : Exec H (Option Opening)) := by
  induction limit generalizing p with
  | zero => exact .pure _
  | succ limit ih =>
    refine .andThen fetch8_hasEffect fun b => ?_
    split
    next p' _ => exact ih p'
    next => exact .pure _

theorem decodeOpcode_hasEffect (p : Prefixes) (opcode : Byte) :
    HasEffect .reads (decodeOpcode p opcode : Exec H (Except Feature Instruction)) := by
  refine .skip (.note ..) fun _ => .ite ?_ (.pure _)
  exact fetch8_hasEffect.map _

/-- To find out which instruction there is changes nothing. -/
theorem fetchInstruction_hasEffect :
    HasEffect .reads (fetchInstruction : Exec H (Option Decoded)) := by
  refine .skip (.view _) fun start => ?_
  refine .andThen (fetchOpening_hasEffect _ _) fun opening? => ?_
  cases opening? with
  | none => exact .pure _
  | some opening => exact (decodeOpcode_hasEffect opening.markers opening.opcode).map _

/-- Takes a far instruction from the code.  The answer is none for another instruction. -/
def fetchFarInstruction : Exec H (Option FarInstruction) := do
  match ← fetchInstruction with
  | some ⟨p, .ok instruction⟩ => fetchFar p instruction
  | _ => return none

end Exec

namespace Machine

/-- The instruction at the instruction pointer, with its markers. -/
def instruction? (m : Machine H) : Option (Prefixes × Instruction) :=
  match value? fetchInstruction m with
  | some (some ⟨p, .ok instruction⟩) => some (p, instruction)
  | _ => none

/-- The far instruction at the instruction pointer. -/
def farInstruction? (m : Machine H) : Option FarInstruction := (value? fetchFarInstruction m).join

/-! ## Stores of a step -/

/-- The selectors whose entries a step may mark as accessed. -/
def Marks (m : Machine H) (selector : Word) : Prop :=
  ∃ far, m.farInstruction? = some far ∧ far.Marks m.farView selector

/-- The stack that a step may enter to build a frame there. -/
def EntersStack (m : Machine H) (stack : SegmentCache) : Prop :=
  ∃ far, m.farInstruction? = some far ∧ far.EntersStack m.farView stack

end Machine

/-- The stores of a step are permitted. -/
structure PermitsStep (permits : H → Dword → List Byte → Prop) (m : Machine H) : Prop where
  segments : CoversSegments permits m
  marks : ∀ {selector}, m.Marks selector → CoversMark permits m.toProcessor selector
  stack : ∀ {stack}, m.EntersStack stack → CoversCache permits m.toProcessor stack

/-- When every store is permitted, those of a step are. -/
theorem PermitsStep.of_all (m : Machine H) : PermitsStep (fun _ _ _ => True) m :=
  ⟨fun _ _ _ _ _ => trivial, fun _ _ _ _ _ => trivial, fun _ _ _ _ _ => trivial⟩

/-- What a step is permitted includes what its far transfer needs. -/
theorem PermitsStep.far (hp : PermitsStep permits m) {far : FarInstruction}
    (hf : m.farInstruction? = some far) : PermitsFar permits m far :=
  ⟨hp.segments, fun h => hp.marks ⟨far, hf, h⟩, fun h => hp.stack ⟨far, hf, h⟩⟩

/-! ## Running -/

/-- What a step has done when its instruction is completed. -/
def CompletesStep (permits : H → Dword → List Byte → Prop) (m m' : Machine H) : Prop :=
  ∃ p i, m.instruction? = some (p, i) ∧ Completes permits m i m.farInstruction? m'

/-- What a step has done when it faults: the instruction cannot be fetched, or it fails. -/
inductive FailsStep (permits : H → Dword → List Byte → Prop) (m : Machine H) (f : Fault)
    (m' : Machine H) : Prop where
  | fetch :
    Effect.reads.Faults permits m f m' →
    FailsStep permits m f m'
  | run {p : Prefixes} {i : Instruction} :
    m.instruction? = some (p, i) →
    Fails permits m p i m.farInstruction? f m' →
    FailsStep permits m f m'

/-- An instruction that is run completes, or fails with a fault that its effect bounds. -/
theorem Exec.execute_ends (hp : PermitsStep permits m) :
    Ends execute m
      (fun done m' => if done then CompletesStep permits m m' else Agree permits [] m m')
      (fun f m' => FailsStep permits m f m') := by
  rw [execute, ends_bind]
  refine ((fetchInstruction_hasEffect hp.segments).value.and ((fetchInstruction_hasEffect
    hp.segments).follow fun
      | some ⟨p, .ok i⟩ => fetchFar p i
      | _ => return none)).mono (fun decoded m₁ h₁ => ?_) fun f m' he => .fetch he.1
  obtain ⟨⟨hv, ha⟩, hfollow, -⟩ := h₁
  obtain ⟨eip, log, rfl⟩ := ha.exists_moved
  match decoded with
  | some ⟨p, .ok i⟩ =>
    have hi : m.instruction? = some (p, i) := by rw [Machine.instruction?, hv]
    have hfar : m.farInstruction? = farInstruction? p i { m with eip := eip, log := log } :=
      congrArg Option.join hfollow
    rw [ends_bind]
    refine (runInstruction_ends p i (hp.segments.of_agree ha) fun hf =>
      (hp.far (hfar.trans hf)).moved eip log).mono (fun _ m' h => ?_) fun f m' h => ?_
    · exact ⟨p, i, hi, hfar ▸ h.of_moved⟩
    · exact .run hi (hfar ▸ h.of_moved)
  | some ⟨p, .error feature⟩ => exact .fetch ⟨⟨[], rfl, ha⟩, nofun⟩
  | none => exact ha

/-- What a step has done, by how it ends.  A completed instruction is counted, and after a fault
the instruction pointer is back at the start of the instruction. -/
inductive EndsStep (permits : H → Dword → List Byte → Prop) (m : Machine H) :
    Machine.StepEnd → Machine H → Prop where
  | completed {m₁ : Machine H} :
    CompletesStep permits m m₁ →
    EndsStep permits m .completed { m₁ with retired := m₁.retired + 1 }
  | fault {f : Fault} {m₁ : Machine H} {log : Log} :
    FailsStep permits m f m₁ →
    EndsStep permits m (.fault f) { m₁ with eip := m.eip, log := log }
  | never {m₁ : Machine H} :
    Agree permits [] m m₁ →
    EndsStep permits m .never m₁

namespace Machine

omit [Host H] in
/-- After a fault the instruction pointer is back at the start, and the fault is in the log. -/
theorem exists_afterFault (m : Machine H) (start : Dword) (f : Fault) :
    ∃ log, m.afterFault start f = { m with eip := start, log := log } := by
  cases f <;> exact ⟨_, rfl⟩

/-- The three ways in which a step may end, with what each may have changed. -/
theorem step_ends (hp : PermitsStep permits m) : EndsStep permits m m.step.1 m.step.2 := by
  have he := execute_ends hp
  unfold Ends at he
  unfold step
  cases hx : EStateM.run execute m with
  | ok done m₁ =>
    simp only [hx] at he
    cases done with
    | true => exact .completed he
    | false => exact .never he
  | error f m₁ =>
    simp only [hx] at he
    obtain ⟨log, hlog⟩ := m₁.exists_afterFault m.eip f
    simp only [hlog]
    exact .fault he

/-- A step in protected mode leaves the segment registers alone, or it is a far instruction. -/
theorem step_cases (hp : PermitsStep permits m) (hu : m.usesDescriptors = true) :
    ∃ m₁ eip log retired,
      m.step.2 = { m₁ with eip := eip, log := log, retired := retired } ∧
      ((∃ S, Agree permits S m m₁) ∨
        ∃ far, m.farInstruction? = some far ∧ CompletesFar permits m far m₁) := by
  have hends := step_ends hp
  generalize m.step.1 = ending, m.step.2 = m' at hends ⊢
  cases hends with
  | completed h =>
    obtain ⟨p, i, -, h⟩ := h
    refine ⟨_, _, _, _, rfl, ?_⟩
    cases h with
    | near ha => exact .inl ⟨_, ha⟩
    | far hf hc => exact .inr ⟨_, hf, hc hu⟩
  | fault h =>
    refine ⟨_, _, _, _, rfl, .inl ?_⟩
    cases h with
    | fetch he => exact he.fault.imp fun _ h => h.2
    | run _ hf =>
      cases hf with
      | near he _ => exact he.fault.imp fun _ h => h.2
      | far _ he => exact he.fault.imp fun _ h => h.2
  | never ha => exact ⟨_, _, _, _, rfl, .inl ⟨_, ha⟩⟩

end Machine

end Ia32
