import Ia32.Proofs.StepCases

/-!
# Privilege levels

In protected mode the privilege level is the level of the code segment.  A
completed step keeps it, or it is a call through a gate to a more privileged
level, or a return to a less privileged one.  A jump never changes the level, and
neither does a call without a gate.
-/

namespace Ia32

open Host Exec

/-! ## Levels -/

theorem requestedLevel_le (selector : Word) : requestedLevel selector ≤ 3 := by
  unfold requestedLevel
  generalize selector.setWidth 8 = b
  revert b
  decide

theorem Descriptor.dpl_le (d : Descriptor) : d.dpl ≤ 3 := by
  unfold dpl
  generalize (d.high >>> 13).setWidth 8 = b
  revert b
  decide

/-- The level that is written into a selector is read back from it. -/
theorem requestedLevel_withLevel {level : Byte} (h : level ≤ 3) (selector : Word) :
    requestedLevel (withLevel selector level) = level := by
  have hl : level = 0 ∨ level = 1 ∨ level = 2 ∨ level = 3 := by
    revert level
    decide
  rw [requestedLevel, withLevel, BitVec.setWidth_or, BitVec.setWidth_and]
  generalize selector.setWidth 8 = b
  rcases hl with rfl | rfl | rfl | rfl <;> revert b <;> decide

theorem Processor.cpl_of_usesDescriptors {s : Processor} (hu : s.usesDescriptors = true) :
    s.cpl = s.segs.cs.pl := by
  simp only [usesDescriptors, Bool.and_eq_true, Bool.not_eq_true'] at hu
  simp [cpl, hu.1, hu.2]

variable {H : Type} [Host H] {permits : H → Dword → List Byte → Prop} {m m' : Machine H}
  {segs : Segments} {eip : Dword}

/-- A far transfer stays in protected mode. -/
theorem Loads.usesDescriptors_eq (h : Loads permits m m' segs eip) :
    m'.usesDescriptors = m.usesDescriptors :=
  h.rest.usesDescriptors_eq

/-- After a far transfer the level is that of the code segment that it loads. -/
theorem Loads.cpl_eq (h : Loads permits m m' segs eip) (hu : m.usesDescriptors = true) :
    m'.cpl = segs.cs.pl := by
  rw [Processor.cpl_of_usesDescriptors (h.usesDescriptors_eq.trans hu), h.segs]

/-! ## Changes of the level -/

/-- How a step from a machine to a processor `s` may change the level. -/
inductive LevelChange (m : Machine H) (s : Processor) : Prop where
  | same :
    s.cpl = m.cpl →
    LevelChange m s
  | inward {w : Width} {dest : FarTarget} {gate target stack : Descriptor} {place : StackPointer} :
    m.farInstruction? = some (.transfer .call w dest) →
    InnerCall m.farView dest.selector gate target place stack →
    s.cpl = target.dpl →
    s.cpl < m.cpl →
    s.segs.cs = .ofDescriptor (withLevel gate.gateSelector s.cpl) target →
    s.eip = gate.callTarget →
    s.segs.ss = .ofDescriptor place.selector stack →
    LevelChange m s
  | outward {w : Width} {released selector : Word} :
    m.farInstruction? = some (.ret w released) →
    (m.farView.frameValue? w 1).map (·.setWidth 16) = some selector →
    s.cpl = requestedLevel selector →
    m.cpl < s.cpl →
    LevelChange m s

/-- A far instruction changes the level in one of these ways. -/
theorem CompletesFar.levelChange {far : FarInstruction} (h : CompletesFar permits m far m')
    (hf : m.farInstruction? = some far) (hu : m.usesDescriptors = true) (hl : m.cpl ≤ 3) :
    LevelChange m m'.toProcessor := by
  cases h with
  | direct _ hload => exact .same ((hload.cpl_eq hu).trans (requestedLevel_withLevel hl _))
  | gate _ hload => exact .same ((hload.cpl_eq hu).trans (requestedLevel_withLevel hl _))
  | @inner w dest gate target stack place m' hcall hload =>
    have hcpl : m'.cpl = target.dpl :=
      (hload.cpl_eq hu).trans (requestedLevel_withLevel target.dpl_le _)
    refine .inward hf hcall hcpl (hcpl ▸ hcall.inner) ?_ hload.eip ?_
    · rw [hload.segs, hcpl]
      rfl
    · rw [hload.segs]
      rfl
  | same _ hlevel hload => exact .same ((hload.cpl_eq hu).trans hlevel)
  | outer hreturn hload =>
    have hcpl := hload.cpl_eq hu
    exact .outward hf hreturn.popped hcpl (hcpl ▸ hreturn.outer)

/-- A completed step in protected mode keeps the level, or it is a call through a gate to a more
privileged level or a return to a less privileged one. -/
theorem levelChange_of_completed (m : Machine H) (hu : m.usesDescriptors = true)
    (hl : m.segs.cs.pl ≤ 3) (h : m.step.1 = .completed) : LevelChange m m.step.2.toProcessor := by
  have hends := Machine.step_ends (.of_all m)
  rw [h] at hends
  generalize m.step.2 = m' at hends
  cases hends with
  | completed hc =>
    obtain ⟨p, i, -, hc⟩ := hc
    cases hc with
    | near ha => exact .same ha.cpl_eq
    | far hf hc =>
      rw [← Processor.cpl_of_usesDescriptors hu] at hl
      exact (hc hu).levelChange hf hu hl

/-- A machine at level three before a call through a gate. -/
def Machine.atGate : Machine Ram :=
  let bytes := #[
    -- the global table: null, code and data of level zero, and a gate to offset `60` of the code
    0x00, 0x00, 0x00, 0x00, 0x00, 0x00, 0x00, 0x00,
    0xFF, 0xFF, 0x00, 0x00, 0x00, 0x9A, 0xCF, 0x00,
    0xFF, 0xFF, 0x00, 0x00, 0x00, 0x92, 0xCF, 0x00,
    0x60, 0x00, 0x08, 0x00, 0x00, 0xEC, 0x00, 0x00,
    -- the task state segment, with a stack of level zero that is empty at `80`
    0x00, 0x00, 0x00, 0x00, 0x80, 0x00, 0x00, 0x00,
    0x10, 0x00, 0x00, 0x00, 0x00, 0x00, 0x00, 0x00,
    -- the call, and room for the frame
    0x9A, 0x00, 0x00, 0x00, 0x00, 0x1B, 0x00, 0x00] ++ Array.replicate 0x48 0
  let m := Machine.initial ⟨⟨bytes⟩, none, 0, #[]⟩ {}
  { m with
    eip := 0x30
    cr0 := Control.protection
    gdtr := ⟨0, 0x1F⟩
    tr := .ofDescriptor 0 ⟨0x0020000F, 0x00008900⟩
    segs := {
      cs := .ofDescriptor 0x23 ⟨0x0000FFFF, 0x00CFFA00⟩
      ss := .ofDescriptor 0x2B ⟨0x0000FFFF, 0x00CFF200⟩
      ds := .null 0
      es := .null 0
      fs := .null 0
      gs := .null 0 } }

/-- The call goes to level zero. -/
theorem levelChange_atGate :
    Machine.atGate.cpl = 3 ∧ Machine.atGate.step.2.cpl = 0 ∧
      LevelChange Machine.atGate Machine.atGate.step.2.toProcessor :=
  ⟨by decide +kernel, by decide +kernel,
    levelChange_of_completed Machine.atGate (by decide +kernel) (by decide +kernel)
      (by decide +kernel)⟩

end Ia32
