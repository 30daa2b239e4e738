import Ia32.Proofs.StepRuns

/-!
# Instructions in two parts

An instruction takes its operands from the code before it does anything with them.
`Parts` says for some instructions what they take and what they do then.  So a step
at such an instruction is the run of its second part on the machine that is moved
behind the instruction.
-/

namespace Ia32

open Exec

variable {H α : Type} [Host H]

/-- Some instructions in two parts: what is taken from the code, which changes nothing, and what is
done with it. -/
structure Parts (H α : Type) [Host H] where
  /-- Takes the operands.  The answer is none for another instruction. -/
  take : Prefixes → Instruction → Exec H (Option α)
  /-- Does the rest. -/
  run : α → Exec H Unit
  take_hasEffect : ∀ p i, HasEffect .checks (take p i)
  run_eq : ∀ {p i m m₁ a}, (take p i).run m = .ok (some a) m₁ →
    (runInstruction p i).run m = (run a).run m₁

/-- What is taken from the code, and the offset of the next instruction. -/
structure Taken (α : Type) where
  /-- What is taken. -/
  part : α
  /-- The offset of the next instruction. -/
  next : Dword
deriving DecidableEq, Repr

/-- Takes an instruction and its operands from the code. -/
def Parts.fetch (P : Parts H α) : Exec H (Option (Taken α)) := do
  match ← fetchInstruction with
  | some ⟨p, .ok i⟩ =>
    match ← P.take p i with
    | some part => return some ⟨part, ← view (·.eip)⟩
    | none => return none
  | _ => return none

namespace Machine

variable {P : Parts H α} {m m₁ : Machine H} {t : Taken α}

/-- What is taken from the code at the instruction pointer. -/
def taken? (m : Machine H) (P : Parts H α) : Option (Taken α) := (value? P.fetch m).join

/-- The operands are taken from the code behind the opcode. -/
theorem taken?_of_run {p : Prefixes} {i : Instruction} {m₂ : Machine H} {a : α}
    (hf : m.Fetches p i m₁) (h : (P.take p i).run m₁ = .ok (some a) m₂) :
    m.taken? P = some ⟨a, m₂.eip⟩ := by
  have hfetch : P.fetch.run m = .ok (some ⟨a, m₂.eip⟩) m₂ := by
    rw [Parts.fetch, run_bind_of_ok hf.run]
    dsimp only
    rw [run_bind_of_ok h]
    rfl
  exact congrArg Option.join (value?_of_ok hfetch)

/-- How a step goes on after its operands are taken from the code. -/
structure Takes (m : Machine H) (P : Parts H α) (t : Taken α) (m₁ : Machine H) : Prop where
  moved : ∃ log, m₁ = { m with eip := t.next, log := log }
  completes : ∀ {m'}, (P.run t.part).run m₁ = .ok () m' →
    m.step = (.completed, { m' with retired := m'.retired + 1 })
  faults : ∀ {f m'}, (P.run t.part).run m₁ = .error f m' →
    ∃ log, m.step = (.fault f, { m' with eip := m.eip, log := log })

theorem exists_takes (h : m.taken? P = some t) : ∃ m₁, m.Takes P t m₁ := by
  obtain ⟨m', hrun⟩ := value?_eq_some_iff.1 (Option.join_eq_some_iff.1 h)
  obtain ⟨decoded, m₀, hfetch, hrun⟩ := run_bind_eq_ok_iff.1 hrun
  have hmoved := (fetchInstruction_moves m).of_ok hfetch
  split at hrun
  next p i =>
    obtain ⟨part?, m₁, htake, hrun⟩ := run_bind_eq_ok_iff.1 hrun
    split at hrun
    next part =>
      rw [run_view_bind] at hrun
      obtain ⟨htaken, rfl⟩ : _ ∧ _ := EStateM.Result.ok.inj hrun
      obtain rfl := Option.some.inj htaken
      have hf : m.Fetches p i m₀ := ⟨hfetch, hmoved⟩
      have hrest := P.run_eq htake
      refine ⟨m₁, ?_, fun hr => step_of_run hf (hrest.trans hr),
        fun hr => exists_step_of_error hf (hrest.trans hr)⟩
      obtain ⟨eip, log, rfl⟩ := hmoved
      obtain ⟨eip', log', rfl⟩ := (P.take_hasEffect p i).moved rfl htake
      exact ⟨log', rfl⟩
    next => cases hrun
  next => cases hrun

/-- In a completed step the second part has succeeded. -/
theorem Takes.exists_of_completed (h : m.Takes P t m₁) (hs : m.step.1 = .completed) :
    ∃ m', (P.run t.part).run m₁ = .ok () m' ∧ m.step.2 = { m' with retired := m'.retired + 1 } := by
  cases hr : (P.run t.part).run m₁ with
  | ok _ m' => exact ⟨m', rfl, congrArg Prod.snd (h.completes hr)⟩
  | error f m' =>
    obtain ⟨log, hstep⟩ := h.faults hr
    rw [hstep] at hs
    cases hs

end Machine

end Ia32
