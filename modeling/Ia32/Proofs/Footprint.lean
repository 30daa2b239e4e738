import Ia32.Proofs.Stores

/-!
# Footprints

A footprint names the parts of a machine that a program may change.  `Agree` says
that two machines agree outside a footprint.  The instruction pointer and the log
belong to no footprint: every program may change them.  The segment registers,
the control register and the descriptor tables belong to none either: the
programs with a footprint never change them.
-/

namespace Ia32

open Host

/-- The flags that arithmetic sets. -/
def Flags.arithmetic : Dword := carry ||| parity ||| auxiliary ||| zero ||| sign ||| overflow

/-- A part of a machine. -/
inductive Part where
  /-- The general registers. -/
  | registers
  /-- The stack pointer alone. -/
  | stackPointer
  /-- The flags that arithmetic sets. -/
  | arithmeticFlags
  /-- The direction flag. -/
  | directionFlag
  /-- The status of the floating-point unit alone. -/
  | floatStatus
  /-- The floating-point unit. -/
  | float
  /-- Memory. -/
  | memory
  /-- Memory, if the host is one that refuses a group of bytes in the middle. -/
  | tornMemory
  /-- The ports. -/
  | ports
deriving DecidableEq, Repr

/-- Parts of a machine. -/
abbrev Footprint := List Part

namespace Footprint

/-- Whether a flag belongs to a footprint. -/
def HasFlag (S : Footprint) (i : Nat) : Prop :=
  (.arithmeticFlags ∈ S ∧ Flags.arithmetic.getLsbD i) ∨
    (.directionFlag ∈ S ∧ Flags.direction.getLsbD i)

/-- Whether memory belongs to a footprint. -/
def HasMemory (H : Type) [Host H] (S : Footprint) : Prop :=
  .memory ∈ S ∨ (.tornMemory ∈ S ∧ ¬Orderly H)

/-- Two states of the floating-point unit agree outside a footprint. -/
def FloatAgree (S : Footprint) (f f' : Fpu) : Prop :=
  .float ∈ S ∨ (.floatStatus ∈ S ∧ ∃ status, f' = { f with status := status }) ∨ f' = f

variable {S T : Footprint}

/-- A larger footprint has all flags of a smaller one. -/
theorem HasFlag.mono {i : Nat} (h : S.HasFlag i) (hs : S ⊆ T) : T.HasFlag i :=
  h.imp (.imp_left (@hs _)) (.imp_left (@hs _))

theorem HasMemory.mono {H : Type} [Host H] (h : S.HasMemory H) (hs : S ⊆ T) : T.HasMemory H :=
  h.imp (@hs _) (.imp_left (@hs _))

/-- Changes of the unit that a footprint has may follow each other. -/
theorem FloatAgree.trans {f f' f'' : Fpu} (h : S.FloatAgree f f') (h' : S.FloatAgree f' f'') :
    S.FloatAgree f f'' := by
  rcases h with h | ⟨hs, status, rfl⟩ | rfl
  · exact .inl h
  · rcases h' with h' | ⟨_, status', rfl⟩ | rfl
    · exact .inl h'
    · exact .inr (.inl ⟨hs, status', rfl⟩)
    · exact .inr (.inl ⟨hs, status, rfl⟩)
  · exact h'

theorem FloatAgree.mono {f f' : Fpu} (h : S.FloatAgree f f') (hs : S ⊆ T) : T.FloatAgree f f' :=
  h.imp (@hs _) (.imp_left (.imp_left (@hs _)))

end Footprint

variable {H : Type} [Host H]

/-- Two machines agree outside a footprint, and the stores between them are permitted. -/
structure Agree (permits : H → Dword → List Byte → Prop) (S : Footprint) (m m' : Machine H) :
    Prop where
  regs : .registers ∉ S → ∀ r : Reg, m'.regs.get r = m.regs.get r ∨ (.stackPointer ∈ S ∧ r = Reg.esp)
  flags : ∀ i, ¬S.HasFlag i → m'.eflags.getLsbD i = m.eflags.getLsbD i
  cr0 : m'.cr0 = m.cr0
  segs : m'.segs = m.segs
  gdtr : m'.gdtr = m.gdtr
  idtr : m'.idtr = m.idtr
  ldtr : m'.ldtr = m.ldtr
  tr : m'.tr = m.tr
  fpu : S.FloatAgree m.fpu m'.fpu
  host : Reaches (fun h linear bytes => S.HasMemory H ∧ permits h linear bytes) (.ports ∈ S)
    m.host m'.host
  config : m'.config = m.config
  retired : m'.retired = m.retired

namespace Agree

variable {permits : H → Dword → List Byte → Prop} {S T : Footprint}
  {m m' m'' : Machine H}

/-! ## Laws -/

/-- Machines that agree outside a footprint agree outside a larger one. -/
theorem mono (h : Agree permits S m m') (hs : S ⊆ T) : Agree permits T m m' :=
  { h with
    regs := fun hn r => (h.regs (fun hm => hn (hs hm)) r).imp_right (.imp_left (@hs _))
    flags := fun i hn => h.flags i fun hf => hn (hf.mono hs)
    fpu := h.fpu.mono hs
    host := h.host.mono (fun _ _ _ hp => ⟨hp.1.mono hs, hp.2⟩) (@hs _) }

/-- Agreement outside a footprint is transitive, part by part. -/
theorem trans (h : Agree permits S m m') (h' : Agree permits S m' m'') :
    Agree permits S m m'' where
  regs hn r := by
    rcases h'.regs hn r with h₂ | h₂
    · rw [h₂]; exact h.regs hn r
    · exact .inr h₂
  flags i hn := (h'.flags i hn).trans (h.flags i hn)
  cr0 := h'.cr0.trans h.cr0
  segs := h'.segs.trans h.segs
  gdtr := h'.gdtr.trans h.gdtr
  idtr := h'.idtr.trans h.idtr
  ldtr := h'.ldtr.trans h.ldtr
  tr := h'.tr.trans h.tr
  fpu := h.fpu.trans h'.fpu
  host := h.host.trans h'.host
  config := h'.config.trans h.config
  retired := h'.retired.trans h.retired

/-- Changes one after the other add up. -/
theorem append (h : Agree permits S m m') (h' : Agree permits T m' m'') :
    Agree permits (S ++ T) m m'' :=
  (h.mono (List.subset_append_left S T)).trans (h'.mono (List.subset_append_right S T))

/-! ## Single changes -/

/-- Moving the instruction pointer and logging change nothing. -/
theorem moved (S : Footprint) (m : Machine H) (eip : Dword) (log : Log) :
    Agree permits S m { m with eip := eip, log := log } where
  regs _ _ := .inl rfl
  flags _ _ := rfl
  cr0 := rfl
  segs := rfl
  gdtr := rfl
  idtr := rfl
  ldtr := rfl
  tr := rfl
  fpu := .inr (.inr rfl)
  host := .refl _
  config := rfl
  retired := rfl

/-- The instruction pointer and the log belong to no footprint. -/
theorem refl (S : Footprint) (m : Machine H) : Agree permits S m m := moved S m m.eip m.log

/-- Any change of the registers alone. -/
theorem ofRegs (m : Machine H) (regs : Vector Dword 8) :
    Agree permits [.registers] m { m with regs := regs } :=
  { refl [.registers] m with regs := fun hn => absurd (List.mem_singleton_self _) hn }

/-- A change of the stack pointer leaves the other registers. -/
theorem ofStackPointer (m : Machine H) (esp : Dword) :
    Agree permits [.stackPointer] m { m with regs := m.regs.set Reg.esp esp } :=
  { refl [.stackPointer] m with
    regs := by
      intro _ r
      by_cases hr : r = Reg.esp
      · exact .inr ⟨List.mem_singleton_self _, hr⟩
      · have hne : Reg.esp.val ≠ r.val := fun h => hr (Fin.ext h.symm)
        exact .inl (Vector.getElem_set_ne Reg.esp.isLt r.isLt hne) }

/-- A change of flags that the footprint has. -/
theorem ofFlags (S : Footprint) (m : Machine H) (eflags : Dword)
    (h : ∀ i, ¬S.HasFlag i → eflags.getLsbD i = m.eflags.getLsbD i) :
    Agree permits S m { m with eflags := eflags } :=
  { refl S m with flags := h }

/-- A change of the unit that the footprint has. -/
theorem ofFloat (S : Footprint) (m : Machine H) (fpu : Fpu) (h : S.FloatAgree m.fpu fpu) :
    Agree permits S m { m with fpu := fpu } :=
  { refl S m with fpu := h }

/-- A change of the host by stores that are permitted and by ports. -/
theorem ofHost (S : Footprint) (m : Machine H) (host : H)
    (h : Reaches (fun h linear bytes => S.HasMemory H ∧ permits h linear bytes) (.ports ∈ S)
      m.host host) : Agree permits S m { m with host := host } :=
  have hr : Agree permits S m m := refl S m
  { hr with host := h }

/-! ## What agrees -/

/-- What is not in the footprint has not changed. -/
theorem regs_eq (h : Agree permits S m m') (hr : .registers ∉ S) (hs : .stackPointer ∉ S) :
    m'.regs = m.regs := by
  apply Vector.ext
  intro i hi
  rcases h.regs hr ⟨i, hi⟩ with he | he
  · exact he
  · exact absurd he.1 hs

theorem fpu_eq (h : Agree permits S m m') (hf : .float ∉ S) (hs : .floatStatus ∉ S) :
    m'.fpu = m.fpu := by
  rcases h.fpu with hm | ⟨hm, -⟩ | he
  · exact absurd hm hf
  · exact absurd hm hs
  · exact he

/-- The flags of a mask agree when none of them belongs to the footprint. -/
theorem eflags_and (h : Agree permits S m m') (mask : Dword)
    (hm : ∀ i < 32, mask.getLsbD i → ¬S.HasFlag i) : m'.eflags &&& mask = m.eflags &&& mask := by
  apply BitVec.eq_of_getLsbD_eq
  intro i hi
  cases hb : mask.getLsbD i with
  | false => simp [hb]
  | true => simp [hb, h.flags i (hm i hi hb)]

/-- No footprint has the mode: it changes with control registers only. -/
theorem isProtected_eq (h : Agree permits S m m') : m'.isProtected = m.isProtected := by
  simp [Processor.isProtected, h.cr0]

/-- The flags of a mask agree when no instruction of a footprint sets any of them. -/
theorem eflags_and_of_system (h : Agree permits S m m') (mask : Dword)
    (hm : ∀ i < 32, mask.getLsbD i → ¬Flags.arithmetic.getLsbD i ∧ ¬Flags.direction.getLsbD i) :
    m'.eflags &&& mask = m.eflags &&& mask :=
  h.eflags_and mask fun i hi hv hf => by
    rcases hf with ⟨_, ha⟩ | ⟨_, hd⟩
    · exact (hm i hi hv).1 ha
    · exact (hm i hi hv).2 hd

theorem isVirtual8086_eq (h : Agree permits S m m') : m'.isVirtual8086 = m.isVirtual8086 := by
  have he := h.eflags_and_of_system Flags.virtual8086 (by decide)
  simp [Processor.isVirtual8086, Processor.flag, Flags.test, he]

theorem usesDescriptors_eq (h : Agree permits S m m') :
    m'.usesDescriptors = m.usesDescriptors := by
  simp [Processor.usesDescriptors, h.isProtected_eq, h.isVirtual8086_eq]

/-- The level is that of the code segment, which only a far transfer changes. -/
theorem cpl_eq (h : Agree permits S m m') : m'.cpl = m.cpl := by
  simp [Processor.cpl, h.isProtected_eq, h.isVirtual8086_eq, h.segs]

/-- Machines that agree everywhere differ in the instruction pointer and the log alone. -/
theorem exists_moved (h : Agree permits [] m m') :
    ∃ eip log, m' = { m with eip := eip, log := log } := by
  refine ⟨m'.eip, m'.log, ?_⟩
  have hregs : m'.regs = m.regs := h.regs_eq List.not_mem_nil List.not_mem_nil
  have hflags : m'.eflags = m.eflags :=
    BitVec.eq_of_getLsbD_eq fun i _ => h.flags i (by simp [Footprint.HasFlag])
  have hfpu : m'.fpu = m.fpu := by simpa [Footprint.FloatAgree] using h.fpu
  have hhost : m'.host = m.host :=
    h.host.eq_of_nothing (by simp [Footprint.HasMemory]) List.not_mem_nil
  cases m with
  | mk p _ _ _ _ =>
    cases p
    cases m' with
    | mk p' _ _ _ _ =>
      cases p'
      have := h.cr0; have := h.segs; have := h.gdtr; have := h.idtr; have := h.ldtr
      have := h.tr; have := h.config; have := h.retired
      simp_all

end Agree

end Ia32
