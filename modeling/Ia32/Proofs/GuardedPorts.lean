import Ia32.Proofs.PortAccesses
import Ia32.Proofs.Rings

/-!
# Guarded ports

In protected mode a program above the level in the flags, and every virtual-8086
program, depends on the port map.  A step of it makes no access to a port but one
that the map allows, with all the ports that a wide value goes through.  When the
map does not allow the ports of an instruction, the step faults and makes no
access.

The level in the flags, the virtual-8086 flag and the task register decide about
this.  No step changes them, and so no run of steps does.
-/

namespace Ia32

open Host Exec

variable {H : Type} [Host H]

/-! ## What decides -/

/-- What decides about ports is the same on two machines. -/
structure KeepsPermission (m m' : Machine H) : Prop where
  level : m'.iopl = m.iopl
  virtual8086 : m'.isVirtual8086 = m.isVirtual8086
  task : m'.tr = m.tr

namespace KeepsPermission

variable {m m₁ m' : Machine H}

omit [Host H] in
theorem refl (m : Machine H) : KeepsPermission m m := ⟨rfl, rfl, rfl⟩

omit [Host H] in
theorem trans (h : KeepsPermission m m₁) (h' : KeepsPermission m₁ m') : KeepsPermission m m' where
  level := h'.level.trans h.level
  virtual8086 := h'.virtual8086.trans h.virtual8086
  task := h'.task.trans h.task

end KeepsPermission

theorem Agree.iopl_eq {permits : H → Dword → List Byte → Prop} {S : Footprint} {m m' : Machine H}
    (h : Agree permits S m m') : m'.iopl = m.iopl := by
  have he := h.eflags_and_of_system 0x3000 (by decide)
  have hlevel : ∀ flags : Dword, Flags.ioPrivilege flags = ((flags &&& 0x3000) >>> 12).toNat := by
    intro flags
    rw [Flags.ioPrivilege, BitVec.ushiftRight_and_distrib]
    rfl
  rw [Processor.iopl, Processor.iopl, hlevel, hlevel, he]

/-- No step changes what decides about ports. -/
theorem Machine.step_keepsPermission (m : Machine H) : KeepsPermission m m.step.2 := by
  obtain ⟨S, m₁, eip, log, retired, hm, ha⟩ := m.step_agrees
  have ha : Agree (fun _ _ _ => True) S m { m₁ with segs := m.segs } := ha
  rw [hm]
  exact ⟨ha.iopl_eq, ha.isVirtual8086_eq, ha.tr⟩

/-- No run of steps changes it, whatever faults there are on the way. -/
theorem Machine.Runs.keepsPermission {m m' : Machine H} (h : m.Runs m') : KeepsPermission m m' := by
  induction h with
  | refl m => exact .refl m
  | step _ ih => exact (Machine.step_keepsPermission _).trans ih

/-! ## Steps that depend on the map -/

/-- A step uses ports as the map says. -/
structure GuardsPorts (m : Machine (Traced H)) : Prop where
  allowed : ∃ made, m.step.2.host.accesses = m.host.accesses ++ made ∧
    ∀ access ∈ made, m.portRange? = some access.range ∧ MapAllows m.host m.tr access.range
  denied : m.AtPortInstruction →
    (∀ range, m.portRange? = some range → ¬MapAllows m.host m.tr range) →
    (∃ f, m.step.1 = .fault f) ∧ m.step.2.host.accesses = m.host.accesses

/-- A step that makes one access at most. -/
theorem GuardsPorts.of_allowed {m : Machine (Traced H)} {range : PortRange}
    (hrange : m.portRange? = some range) (hallows : MapAllows m.host m.tr range)
    (hmade : MakesAtMost range m m.step.2) : GuardsPorts m where
  allowed := by
    rcases hmade with hacc | ⟨access, rfl, hacc⟩
    · exact ⟨[], by simpa using hacc, by simp⟩
    · exact ⟨[access], hacc, by simpa using ⟨hrange, hallows⟩⟩
  denied _ hnone := absurd hallows (hnone range hrange)

/-- Where the port map decides, a step uses ports as the map says.  What decides stays as it is. -/
theorem Machine.step_guardsPorts (m : Machine (Traced H)) :
    (m.isProtected = true → m.iopl < m.cpl.toNat ∨ m.isVirtual8086 = true → GuardsPorts m) ∧
      KeepsPermission m m.step.2 := by
  refine ⟨fun hprotected hlevel => ?_, m.step_keepsPermission⟩
  have hdecides : portMapDecides m.toProcessor = true := by
    simpa [portMapDecides, hprotected] using hlevel
  have hports := m.step_ports
  generalize hending : m.step.1 = ending, hm' : m.step.2 = m' at hports
  cases hports with
  | silent hsilent hacc =>
    refine ⟨⟨[], by simpa [hm'] using hacc, by simp⟩, fun hat _ => ⟨?_, hm' ▸ hacc⟩⟩
    rw [hending]
    exact hsilent.resolve_right fun hn => hn hat
  | used hrange hmay hmakes => exact .of_allowed hrange (hmay hdecides) (hm' ▸ hmakes)
  | @lost p size range _ _ hi hrange hmay _ hacc =>
    exact .of_allowed hrange (hmay hdecides) (.inr ⟨.read range.width range.port, rfl, hm' ▸ hacc⟩)

/-- A machine at level three with a port map that allows the ports zero to three.  At offset `69`
it writes a byte to port 2, at offset `6B` four bytes. -/
def Machine.outputtingAt (start : Dword) : Machine (Traced Ram) :=
  -- the fixed part of the task state segment, with the place of the map at its end
  let fixedPart := Array.replicate 102 0 ++ #[0x68, 0x00]
  let map := #[0xF0]
  let code := #[0xE6, 0x02, 0xE7, 0x02]
  let m := Machine.initial ⟨⟨⟨fixedPart ++ map ++ code⟩, none, 0, #[]⟩, []⟩ {}
  { m with
    eip := start
    cr0 := Control.protection
    tr := .ofDescriptor 0x28 ⟨0x00000068, 0x00008900⟩
    segs := { m.segs with cs := .ofDescriptor 0x23 ⟨0x0000FFFF, 0x00CFFA00⟩ } }

/-- The byte goes through, and the four bytes do not. -/
theorem guardsPorts_outputting :
    (Machine.outputtingAt 0x69).step.2.host.accesses = [.write .byte 2 0] ∧
      (Machine.outputtingAt 0x6B).step.1 = .fault (.generalProtection 0) ∧
      (Machine.outputtingAt 0x6B).step.2.host.accesses = [] ∧
      GuardsPorts (Machine.outputtingAt 0x69) ∧ GuardsPorts (Machine.outputtingAt 0x6B) :=
  ⟨by decide +kernel, by decide +kernel, by decide +kernel,
    (Machine.step_guardsPorts _).1 (by decide) (.inl (by decide)),
    (Machine.step_guardsPorts _).1 (by decide) (.inl (by decide))⟩

end Ia32
