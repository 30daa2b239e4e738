import Ia32.Host.Ram
import Ia32.Host.Traced
import Ia32.Proofs.BlindFloats
import Ia32.Proofs.BlindTransfers
import Ia32.Proofs.SnapshotRoundTrip
import Ia32.Step

/-!
# Runs from a snapshot

A step does the same on a machine without its record, so two machines that differ
in their records alone take the same steps, however many (`steps_of_bare_eq`).
The machine that has loaded a snapshot is such a machine: it has the processor of
the one that was saved, and both have the same host and the same configuration.
Hosts are compared as a whole.  One that records the use of its ports shows that
the ports are used alike (`Traced`).
-/

namespace Ia32

variable {H : Type}

/-! ## Steps are blind -/

namespace Exec

instance widthOf_blind (p : Prefixes) (size : Size) : Blind (widthOf p size : Exec H Width) := by
  unfold widthOf
  split <;> infer_instance

variable [Host H]

instance runInstruction_blind (p : Prefixes) (i : Instruction) :
    Blind (runInstruction p i : Exec H Unit) := by
  unfold runInstruction
  cases i <;> infer_instance

instance fetchOpening_blind (limit : Nat) (p : Prefixes) :
    Blind (fetchOpening limit p : Exec H (Option Opening)) := by
  induction limit generalizing p with
  | zero => exact .pure none
  | succ limit ih =>
    unfold fetchOpening
    refine .bind inferInstance fun b => ?_
    split <;> infer_instance

instance decodeOpcode_blind (p : Prefixes) (opcode : Byte) :
    Blind (decodeOpcode p opcode : Exec H (Except Feature Instruction)) := by
  unfold decodeOpcode
  infer_instance

instance fetchInstruction_blind : Blind (fetchInstruction : Exec H (Option Decoded)) := by
  unfold fetchInstruction
  refine .bind inferInstance fun start => .bind inferInstance fun opening? => ?_
  cases opening? <;> infer_instance

instance execute_blind : Blind (execute : Exec H Bool) := by
  unfold execute
  refine .bind inferInstance fun decoded? => ?_
  split <;> infer_instance

end Exec

/-- The reserved flag is on at all times, so that a snapshot need not restore it. -/
theorem Flags.or_reserved {flags : Dword} (h : test flags reserved = true) :
    flags ||| reserved = flags := by
  have hbit : reserved = BitVec.twoPow 32 1 := by decide
  have hset : flags.getLsbD 1 = true := by
    rw [test, hbit, BitVec.and_twoPow, bne_iff_ne] at h
    exact Decidable.of_not_not fun hclear => h (if_neg hclear)
  refine BitVec.eq_of_getLsbD_eq fun i hi => ?_
  rw [hbit, BitVec.getLsbD_or, BitVec.getLsbD_twoPow]
  by_cases hone : 1 = i
  · simp [← hone, hset]
  · simp [hone]

namespace Machine

/-! ## Machines that differ in their records -/

/-- Bare machines differ in the log and in the count of instructions. -/
theorem bare_eq_iff {m m' : Machine H} :
    m.bare = m'.bare ↔
      m.toProcessor = m'.toProcessor ∧ m.host = m'.host ∧ m.config = m'.config := by
  simp [bare]

/-- A fault that is logged is not seen without the log. -/
theorem bare_logFault (m : Machine H) (f : Fault) : (m.logFault f).bare = m.bare := by
  unfold logFault
  split <;> rfl

variable [Host H] {m m' : Machine H}

/-- A step does not depend on the log or on the count. -/
theorem step_of_bare_eq (h : m.bare = m'.bare) :
    m.step.1 = m'.step.1 ∧ m.step.2.bare = m'.step.2.bare := by
  have hends : Exec.bareEnd (EStateM.run Exec.execute m) =
      Exec.bareEnd (EStateM.run Exec.execute m') := by
    rw [EStateM.run, EStateM.run, ← Exec.execute_blind.run_bare, ← Exec.execute_blind.run_bare, h]
  have heip : m.eip = m'.eip := congrArg (·.eip) h
  unfold step
  revert hends
  cases EStateM.run Exec.execute m <;> cases EStateM.run Exec.execute m' <;> intro hends
  case ok.ok b m₁ b' m₁' =>
    obtain ⟨rfl, hbare⟩ : b = b' ∧ m₁.bare = m₁'.bare := by simpa [Exec.bareEnd] using hends
    cases b <;> exact ⟨rfl, hbare⟩
  case error.error f m₁ f' m₁' =>
    obtain ⟨rfl, hbare⟩ : f = f' ∧ m₁.bare = m₁'.bare := by simpa [Exec.bareEnd] using hends
    refine ⟨rfl, ?_⟩
    simp only [afterFault, bare_logFault, heip]
    exact congrArg (fun m : Machine H => { m with eip := m'.eip }) hbare
  all_goals simp [Exec.bareEnd] at hends

/-- The next `count` steps: how each of them ends, and the machine after them.  A step that faults
is followed by the next one all the same. -/
def steps : (count : Nat) → Machine H → List StepEnd × Machine H
  | 0, m => ([], m)
  | count + 1, m =>
    let (last, m) := m.step
    let (rest, m) := steps count m
    (last :: rest, m)

/-- By induction, no number of steps does. -/
theorem steps_of_bare_eq (h : m.bare = m'.bare) (n : Nat) :
    (m.steps n).1 = (m'.steps n).1 ∧ (m.steps n).2.bare = (m'.steps n).2.bare := by
  induction n generalizing m m' with
  | zero => exact ⟨rfl, h⟩
  | succ n ih =>
    obtain ⟨hend, hbare⟩ := step_of_bare_eq h
    obtain ⟨hrest, hlast⟩ := ih hbare
    refine ⟨?_, hlast⟩
    change m.step.1 :: (steps n m.step.2).1 = m'.step.1 :: (steps n m'.step.2).1
    rw [hend, hrest]

/-! ## Snapshots -/

omit [Host H] in
theorem restore_snapshot {c d : Machine H} (hreserved : c.flag Flags.reserved = true) :
    d.restore (Snapshot.save c.toProcessor) = (true, { d with toProcessor := c.toProcessor }) := by
  rw [restore, Snapshot.load?_save, Flags.or_reserved hreserved]

/-- A machine that has loaded the snapshot of another one takes the same steps as that one, if
both have the same host and the same configuration.  What is no snapshot changes nothing. -/
theorem restore_runsAlike {c d : Machine H} (hhost : c.host = d.host)
    (hconfig : c.config = d.config) (hreserved : c.flag Flags.reserved = true) :
    (∃ d', d.restore (Snapshot.save c.toProcessor) = (true, d') ∧ ∀ n,
      (c.steps n).1 = (d'.steps n).1 ∧
        (c.steps n).2.host = (d'.steps n).2.host ∧
        Snapshot.save (c.steps n).2.toProcessor = Snapshot.save (d'.steps n).2.toProcessor) ∧
      ∀ value d', d.restore value = (false, d') → d' = d := by
  constructor
  · refine ⟨_, restore_snapshot hreserved, fun n => ?_⟩
    have hbare : c.bare = { d with toProcessor := c.toProcessor }.bare :=
      bare_eq_iff.2 ⟨rfl, hhost, hconfig⟩
    obtain ⟨hends, hlast⟩ := steps_of_bare_eq hbare n
    obtain ⟨hprocessor, hhost, -⟩ := bare_eq_iff.1 hlast
    exact ⟨hends, hhost, congrArg Snapshot.save hprocessor⟩
  · intro value d' h
    unfold restore at h
    split at h
    · cases h
    · cases h
      rfl

/-- A machine that writes to a port and then meets an instruction that is missing. -/
def outputting : Machine (Traced Ram) :=
  let m := Machine.initial ⟨⟨⟨#[0xE6, 0x02, 0xF4]⟩, none, 0, #[]⟩, []⟩ {}
  { m with eip := 0, segs := { m.segs with cs := .realMode 0 false } }

/-- Its surroundings, with a processor at power-on that has completed some instructions. -/
def loading : Machine (Traced Ram) := { Machine.initial outputting.host {} with retired := 7 }

theorem restore_runsAlike_outputting :
    (outputting.steps 2).1 = [.completed, .fault (.unimplemented .halt)] ∧
      (outputting.steps 2).2.host.accesses = [.write .byte 2 0] ∧
      outputting.host = loading.host ∧ outputting.config = loading.config ∧
      outputting.flag Flags.reserved = true ∧
      (∃ d', loading.restore (Snapshot.save outputting.toProcessor) = (true, d') ∧ ∀ n,
        (outputting.steps n).1 = (d'.steps n).1 ∧
          (outputting.steps n).2.host = (d'.steps n).2.host ∧
          Snapshot.save (outputting.steps n).2.toProcessor =
            Snapshot.save (d'.steps n).2.toProcessor) ∧
      ∀ value d', loading.restore value = (false, d') → d' = loading :=
  have hreserved : outputting.flag Flags.reserved = true := by decide
  ⟨by decide +kernel, by decide +kernel, rfl, rfl, hreserved, restore_runsAlike rfl rfl hreserved⟩

end Machine

end Ia32
