import Ia32.Proofs.StepCases

/-!
# Restartable faults

After a fault the instruction can be run once more: the fault has left nothing
behind that the instruction would not write again in the same way.  What is left
behind are flags of arithmetic and the status of the floating-point unit, a count
that a loop has taken down, and what a push of all registers or a far instruction
has stored already.  An instruction that is refused leaves no trace.
-/

namespace Ia32

open Host Exec

/-! ## The footprint of a fault -/

/-- The footprint of a fault of an instruction, as long as it does not transfer far. -/
theorem Instruction.effect_fault (i : Instruction) {S : Footprint} (hS : S ∈ i.effect.fault) :
    .stackPointer ∉ S ∧ .directionFlag ∉ S ∧ .float ∉ S ∧
      (.registers ∈ S → ∃ mode, i = .loop mode) ∧ (.memory ∈ S → i = .pushAll) := by
  unfold effect at hS
  split at hS <;> cases hS <;> simp

/-- What a fault leaves behind. -/
structure Restartable (m : Machine Ram) (f : Fault) (m' : Machine Ram) : Prop where
  eip : m'.eip = m.eip
  regs : m'.regs = m.regs ∨ ∃ p mode, m.instruction? = some (p, .loop mode) ∧
    CountsDown p m.toProcessor m'.toProcessor
  segs : m'.segs = m.segs
  cr0 : m'.cr0 = m.cr0
  gdtr : m'.gdtr = m.gdtr
  idtr : m'.idtr = m.idtr
  ldtr : m'.ldtr = m.ldtr
  tr : m'.tr = m.tr
  retired : m'.retired = m.retired
  fpu : ∃ status, m'.fpu = { m.fpu with status := status }
  eflags : m'.eflags &&& ~~~Flags.arithmetic = m.eflags &&& ~~~Flags.arithmetic
  bytes : m'.host.bytes = m.host.bytes ∨ (∃ p, m.instruction? = some (p, .pushAll)) ∨
    m.farInstruction?.isSome
  refusal : f.isRefusal → m'.toProcessor = m.toProcessor ∧ m'.host = m.host

variable {m m₁ : Machine Ram} {f : Fault} {S : Footprint}

/-- Memory that does not belong to a footprint stays.  Array memory never tears a store. -/
theorem Agree.bytes_eq {permits : Ram → Dword → List Byte → Prop} (ha : Agree permits S m m₁)
    (hm : .memory ∉ S) : m₁.host.bytes = m.host.bytes :=
  Ram.bytes_of_reaches ha.host fun _ _ _ hp => hp.1.elim hm fun ht => ht.2 Ram.orderly

theorem Agree.eflags_eq {permits : Ram → Dword → List Byte → Prop} (ha : Agree permits S m m₁)
    (hd : .directionFlag ∉ S) :
    m₁.eflags &&& ~~~Flags.arithmetic = m.eflags &&& ~~~Flags.arithmetic := by
  refine ha.eflags_and _ fun i _ hi hf => ?_
  rcases hf with ⟨_, hflag⟩ | ⟨hmem, _⟩
  · simp [hflag] at hi
  · exact hd hmem

/-- A fault that leaves a machine of a small footprint is restartable. -/
theorem Restartable.of_agree {permits : Ram → Dword → List Byte → Prop}
    (ha : Agree permits S m m₁) {log : Log} (hd : .directionFlag ∉ S) (hfloat : .float ∉ S)
    (hregs : m₁.regs = m.regs ∨ ∃ p mode, m.instruction? = some (p, .loop mode) ∧
      CountsDown p m.toProcessor m₁.toProcessor)
    (hbytes : m₁.host.bytes = m.host.bytes ∨ (∃ p, m.instruction? = some (p, .pushAll)) ∨
      m.farInstruction?.isSome)
    (hr : f.isRefusal → Agree permits [] m m₁) :
    Restartable m f { m₁ with eip := m.eip, log := log } where
  eip := rfl
  regs := hregs
  segs := ha.segs
  cr0 := ha.cr0
  gdtr := ha.gdtr
  idtr := ha.idtr
  ldtr := ha.ldtr
  tr := ha.tr
  retired := ha.retired
  fpu := by
    rcases ha.fpu with h | ⟨_, h⟩ | h
    · exact absurd h hfloat
    · exact h
    · exact ⟨m.fpu.status, h⟩
  eflags := ha.eflags_eq hd
  bytes := hbytes
  refusal h := by
    obtain ⟨eip, log, rfl⟩ := (hr h).exists_moved
    exact ⟨rfl, rfl⟩

/-- Every fault of a step is restartable. -/
theorem restartable_of_fault (h : m.step.1 = .fault f) : Restartable m f m.step.2 := by
  have hends := Machine.step_ends (.of_all m)
  rw [h] at hends
  generalize m.step.2 = m' at hends
  cases hends with
  | fault hfails =>
    cases hfails with
    | fetch he =>
      obtain ⟨S, ⟨⟩, ha⟩ := he.fault
      exact .of_agree ha (by simp) (by simp) (.inl (ha.regs_eq (by simp) (by simp)))
        (.inl (ha.bytes_eq (by simp))) fun _ => ha
    | @run p i hi hfails =>
      cases hfails with
      | near he hc =>
        obtain ⟨S, hS, ha⟩ := he.fault
        obtain ⟨hstack, hdirection, hfloat, hloop, hpush⟩ := i.effect_fault hS
        refine .of_agree ha hdirection hfloat ?_ ?_ fun hr => ?_
        · by_cases hregs : .registers ∈ S
          · obtain ⟨mode, rfl⟩ := hloop hregs
            exact .inr ⟨_, mode, hi, hc mode rfl⟩
          · exact .inl (ha.regs_eq hregs hstack)
        · by_cases hmemory : .memory ∈ S
          · exact .inr (.inl ⟨_, hpush hmemory ▸ hi⟩)
          · exact .inl (ha.bytes_eq hmemory)
        · obtain ⟨T, hT, ha⟩ := he.refusal hr Ram.orderly
          rw [i.effect_refusal] at hT
          cases hT
          exact ha
      | far hfar he =>
        obtain ⟨S, ⟨⟩, ha⟩ := he.fault
        refine .of_agree ha (by simp) (by simp) (.inl (ha.regs_eq (by simp) (by simp)))
          (.inr (.inr hfar)) fun hr => ?_
        obtain ⟨T, ⟨⟩, _⟩ := he.refusal hr Ram.orderly

/-- A machine before a loop whose target lies outside the code segment. -/
def Machine.loopingOut : Machine Ram :=
  let m := Machine.initial ⟨⟨#[0x66, 0xE2, 0x80]⟩, none, 0, #[]⟩ {}
  { m with eip := 0, segs := m.segs.set .cs (.realMode 0 false) }

/-- The loop faults after it has counted down. -/
theorem restartable_loopingOut :
    Machine.loopingOut.step.1 = .fault (.generalProtection 0) ∧
      Machine.loopingOut.step.2.reg .dword Reg.ecx = 0xFFFF ∧
      Restartable Machine.loopingOut (.generalProtection 0) Machine.loopingOut.step.2 :=
  ⟨by decide +kernel, by decide +kernel, restartable_of_fault (by decide +kernel)⟩

end Ia32
