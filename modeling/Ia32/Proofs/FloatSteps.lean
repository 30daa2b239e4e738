import Ia32.Host.Ram
import Ia32.Proofs.FloatOutcomes
import Ia32.Proofs.Rings

/-!
# Steps and the floating-point unit

Only escape opcodes change the unit.  So the unit stays well formed over every
step, whatever is run and however the step ends, and an exception can only
become pending by an instruction of the unit.  When it does, the instruction was
stopped: it is completed, but it has stored, pushed and popped nothing.
-/

namespace Ia32

open Host Exec

variable {H : Type} [Host H] {m m₁ : Machine H} {known : Prop}

/-! ## The instruction of the unit -/

/-- Takes an instruction of the unit from the code.  The answer is none for another
instruction. -/
def Exec.fetchFloatInstruction : Exec H (Option FloatInstruction) := do
  match ← fetchInstruction with
  | some ⟨_, .ok (.escape number)⟩ =>
    return (FloatInstruction.decode number (.ofByte (← fetch8))).toOption
  | _ => return none

/-- The instruction of the unit at the instruction pointer. -/
def Machine.floatInstruction? (m : Machine H) : Option FloatInstruction :=
  (value? fetchFloatInstruction m).join

theorem Machine.Fetches.fpu_eq {p : Prefixes} {i : Instruction} (h : m.Fetches p i m₁) :
    m₁.fpu = m.fpu := by
  obtain ⟨eip, log, rfl⟩ := h.moved
  rfl

theorem Machine.Fetches.undisturbed {p : Prefixes} {i : Instruction} (h : m.Fetches p i m₁) :
    m.Undisturbed m₁ := by
  obtain ⟨eip, log, rfl⟩ := h.moved
  exact ⟨rfl, rfl, fun _ ht => ht⟩

theorem Machine.Fetches.floatInstruction? {p : Prefixes} {number : BitVec 3}
    (h : m.Fetches p (.escape number) m₁) {b : Byte} (hb : value? fetch8 m₁ = some b) :
    m.floatInstruction? = (FloatInstruction.decode number (.ofByte b)).toOption := by
  rw [Machine.floatInstruction?, fetchFloatInstruction, value?_bind_of_ok h.run, value?_map, hb]
  rfl

/-- An instruction that is no escape opcode spares the unit. -/
theorem Instruction.effect_sparesFloat {i : Instruction} (h : ∀ number, i ≠ .escape number) :
    i.effect.SparesFloat := by
  unfold effect
  split
  case h_7 number => exact absurd rfl (h number)
  all_goals decide

/-! ## One step -/

/-- What a step does to the unit.  An exception that becomes pending has stopped an instruction,
which is completed. -/
structure StepSettling (known : Prop) (m : Machine H) (ending : Machine.StepEnd) (m' : Machine H) :
    Prop where
  wellFormed : known → m'.fpu.WellFormed
  stopped : m.floatInstruction? ≠ some .restore → m.fpu.isPending = false →
    m'.fpu.isPending = true → ending = .completed ∧ m.Undisturbed m'

/-- A step that leaves the unit as it is. -/
theorem StepSettling.of_fpu_eq {ending : Machine.StepEnd} {m' : Machine H}
    (hm : known → m.fpu.WellFormed) (h : m'.fpu = m.fpu) : StepSettling known m ending m' where
  wellFormed := h ▸ hm
  stopped _ hb ha := by simp [h, hb] at ha

/-- An instruction other than an escape opcode leaves the unit as it is when it is completed. -/
theorem Exec.runInstruction_fpu_eq {p : Prefixes} {i : Instruction}
    (hi : ∀ number, i ≠ .escape number) (m : Machine H) :
    Ends (runInstruction p i) m (fun _ m' => m'.fpu = m.fpu) (fun _ m' => m'.fpu = m.fpu) := by
  have hspares := Instruction.effect_sparesFloat hi
  have htransfers : Effect.transfers.SparesFloat := by decide
  refine ((runInstruction_touches p i m).and (runInstruction_faults p i m)).mono ?_ ?_
  · rintro _ m' ⟨h, -⟩
    exact (Agree.fpu_eq h hspares.1.1 hspares.1.2 :)
  · rintro f m' ⟨-, h | h⟩
    · obtain ⟨S, hS, ha⟩ := h.fault
      exact ha.fpu_eq (hspares.2 S hS).1 (hspares.2 S hS).2
    · obtain ⟨S, hS, ha⟩ := h.fault
      exact ha.fpu_eq (htransfers.2 S hS).1 (htransfers.2 S hS).2

theorem Machine.step_settles (m : Machine H) (hm : known → m.fpu.WellFormed) :
    StepSettling known m m.step.1 m.step.2 := by
  have hruns := m.step_runs
  generalize m.step.1 = ending, m.step.2 = m' at hruns ⊢
  cases hruns with
  | unfetched _ => exact .of_fpu_eq hm rfl
  | never _ => exact .of_fpu_eq hm rfl
  | @completed p i m₁ m₂ hfetch hr =>
    by_cases hi : ∀ number, i ≠ .escape number
    · exact .of_fpu_eq hm (((runInstruction_fpu_eq hi m₁).of_ok hr).trans hfetch.fpu_eq)
    · obtain ⟨number, rfl⟩ := by simpa using hi
      have hends := (escape_ends p number (hfetch.fpu_eq ▸ hm)).of_ok hr
      refine ⟨hends.wellFormed, fun hne hb ha => ⟨rfl, ?_⟩⟩
      have hu := hends.stopped (fun b hv hd => hne ?_) (hfetch.fpu_eq ▸ hb) ha
      · have hall := hfetch.undisturbed.trans hu
        exact ⟨hall.host, hall.top, hall.tags⟩
      · rw [hfetch.floatInstruction? hv, hd]
        rfl
  | @fault p i m₁ m₂ f log hfetch hr =>
    by_cases hi : ∀ number, i ≠ .escape number
    · exact .of_fpu_eq hm (((runInstruction_fpu_eq hi m₁).of_error hr).trans hfetch.fpu_eq)
    · obtain ⟨number, rfl⟩ := by simpa using hi
      have hends := (escape_ends p number (hfetch.fpu_eq ▸ hm)).of_error hr
      refine ⟨hends.1, fun _ hb ha => ?_⟩
      have hsame : m₂.fpu.isPending = m.fpu.isPending :=
        hends.2.trans (congrArg Fpu.isPending hfetch.fpu_eq)
      simp [hsame, hb] at ha

/-! ## Well-formed units -/

omit [Host H] in
theorem Machine.fpu_reset (m : Machine H) : m.reset.fpu.WellFormed := Fpu.WellFormed.initial

theorem Machine.fpu_step (m : Machine H) (h : m.fpu.WellFormed) : m.step.2.fpu.WellFormed :=
  (m.step_settles (fun _ : True => h)).wellFormed trivial

/-- The unit is well formed after a reset, and then over every run. -/
theorem Machine.fpu_wellFormed (m : Machine H) :
    m.reset.fpu.WellFormed ∧
      (m.fpu.WellFormed → m.step.2.fpu.WellFormed ∧ ∀ m', m.Runs m' → m'.fpu.WellFormed) := by
  refine ⟨m.fpu_reset, fun h => ⟨m.fpu_step h, fun m' hr => ?_⟩⟩
  induction hr with
  | refl => exact h
  | step _ ih => exact ih (Machine.fpu_step _ h)

/-- A machine before a division of one by zero, whose exception is not masked.  The quotient
would be written over the one, and the zero popped. -/
def Machine.dividingByZero : Machine Ram :=
  let m := Machine.initial ⟨⟨#[0xDE, 0xF9]⟩, none, 0, #[]⟩ {}
  { m with
    eip := 0
    segs := { Segments.initial with cs := .realMode 0 false }
    fpu := { Fpu.initial with
      regs := Fpu.initial.regs.set 1 .one
      control := 0x037B
      tags := 0xFFF1 } }

/-- The division raises its exception, and the summary bits say so. -/
theorem Machine.fpu_wellFormed_dividingByZero :
    dividingByZero.step.2.fpu.WellFormed ∧ dividingByZero.step.2.fpu.isPending = true := by
  have h : dividingByZero.fpu.WellFormed :=
    ⟨by decide, by decide, by decide, by decide, by decide, by decide⟩
  exact ⟨((Machine.fpu_wellFormed dividingByZero).2 h).1, by decide +kernel⟩

/-! ## Stopped instructions -/

/-- An instruction that leaves a new exception pending, unless it restores a state, is completed
but has moved no top of the stack, emptied no register and stored nothing. -/
theorem Machine.undisturbed_of_pending (m : Machine H) (hi : m.floatInstruction? ≠ some .restore)
    (hbefore : m.fpu.isPending = false) (hafter : m.step.2.fpu.isPending = true) :
    m.step.1 = .completed ∧ m.step.2.fpu.top = m.fpu.top ∧
      (∀ r, m.step.2.fpu.tagAt r = .empty → m.fpu.tagAt r = .empty) ∧
      m.step.2.host = m.host := by
  have hstopped := (m.step_settles (fun h : False => h.elim)).stopped hi hbefore hafter
  exact ⟨hstopped.1, hstopped.2.top, hstopped.2.tags, hstopped.2.host⟩

/-- The zero that divides stays on the stack. -/
theorem Machine.undisturbed_dividingByZero :
    dividingByZero.floatInstruction? = some (.arithInto .div 1 true) ∧
      dividingByZero.step.1 = .completed ∧
      dividingByZero.step.2.fpu.top = dividingByZero.fpu.top ∧
      dividingByZero.step.2.fpu.tagAt 0 = .zero := by
  have h := Machine.undisturbed_of_pending dividingByZero (by decide +kernel) (by decide)
    (by decide +kernel)
  exact ⟨by decide +kernel, h.1, h.2.1, by decide +kernel⟩

end Ia32
