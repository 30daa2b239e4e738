import Ia32.Host.Ram
import Ia32.Proofs.PortPermission
import Ia32.Proofs.StepRuns

/-!
# Accesses to ports

Which accesses to ports a step makes, on a host that records them.  Only the port
instructions make any, and a completed one makes one at most: it goes through
the ports that its operands name, after the permission for them is checked.

A step that faults has made no access, so that it can be taken again when the
fault is dealt with, with one exception.  A string input reads its port before
the host is asked whether the value can be stored.  When the host refuses the
store, the value is lost.
-/

namespace Ia32

open Host Exec

variable {H : Type}

/-! ## Programs without ports -/

namespace Host

variable [Host H]

/-- A host refuses a store, as a whole or at one of its bytes. -/
def Refuses (h : H) (linear : Dword) (bytes : List Byte) : Prop :=
  Host.checkRange h linear bytes.length ≠ none ∨ ¬PassesEach h linear bytes

theorem accesses_storeAll (t : Traced H) (linear : Dword) (bytes : List Byte) :
    (storeAll t linear bytes).accesses = t.accesses := by
  induction bytes generalizing t linear with
  | nil => rfl
  | cons b bs ih => exact ih (Host.store t linear b) (linear + 1)

/-- Stores are not recorded. -/
theorem Reaches.accesses_eq {permits : Traced H → Dword → List Byte → Prop} {ports : Prop}
    {t t' : Traced H} (h : Reaches permits ports t t') (hp : ¬ports) :
    t'.accesses = t.accesses := by
  induction h with
  | refl => rfl
  | store n _ _ ih => rw [accesses_storeAll, ih]
  | port _ hports => exact absurd hports hp

end Host

variable [Host H] {m m' : Machine (Traced H)}

theorem Agree.accesses_eq {permits : Traced H → Dword → List Byte → Prop} {S : Footprint}
    (h : Agree permits S m m') (hp : .ports ∉ S) : m'.host.accesses = m.host.accesses :=
  h.host.accesses_eq hp

theorem AgreeButSegments.accesses_eq {S : Footprint} (h : AgreeButSegments S m m')
    (hp : .ports ∉ S) : m'.host.accesses = m.host.accesses :=
  have ha : Agree (fun _ _ _ => True) S m { m' with segs := m.segs } := h
  ha.accesses_eq hp

theorem Effect.Faults.accesses_eq {e : Effect} {permits : Traced H → Dword → List Byte → Prop}
    {f : Fault} (h : e.Faults permits m f m') (hp : ∀ S ∈ e.fault, .ports ∉ S) :
    m'.host.accesses = m.host.accesses := by
  obtain ⟨S, hS, ha⟩ := h.fault
  exact ha.accesses_eq (hp S hS)

/-- Ports belong to no footprint of an effect. -/
structure Effect.PortFree (e : Effect) : Prop where
  answer : .ports ∉ e.answer
  fault : ∀ S ∈ e.fault, .ports ∉ S

instance (e : Effect) : Decidable e.PortFree :=
  decidable_of_iff (.ports ∉ e.answer ∧ ∀ S ∈ e.fault, .ports ∉ S)
    ⟨fun h => ⟨h.1, h.2⟩, fun h => ⟨h.answer, h.fault⟩⟩

/-- A program whose effect has no ports makes no access. -/
theorem Exec.HasEffect.accesses_eq {α : Type} {e : Effect} {x : Exec (Traced H) α}
    (hx : HasEffect e x) (he : e.PortFree) (m : Machine (Traced H)) :
    Ends x m (fun _ m' => m'.host.accesses = m.host.accesses)
      (fun _ m' => m'.host.accesses = m.host.accesses) := by
  have hc : CoversSegments (fun _ _ _ => True) m := fun _ _ _ _ _ => trivial
  exact (hx hc).mono (fun _ _ h => h.accesses_eq he.answer) fun _ _ h => h.accesses_eq he.fault

/-! ## Single accesses -/

namespace Exec

/-- Reading a port changes the host and the log alone. -/
theorem portRead_ends {H : Type} [Host H] (w : Width) (port : Word) (m : Machine H) :
    Ends (portRead w port) m
      (fun value m' => value = (readPort m.host w port).1 ∧
        ∃ log, m' = { m with host := (readPort m.host w port).2, log := log })
      fun _ _ => False := by
  cases w <;> exact ⟨rfl, _, rfl⟩

/-- Writing a port changes the host and the log alone. -/
theorem portWrite_ends {H : Type} [Host H] (w : Width) (port : Word) (value : Dword)
    (m : Machine H) :
    Ends (portWrite w port value) m
      (fun _ m' => ∃ log, m' = { m with host := writePort m.host w port value, log := log })
      fun _ _ => False := by
  cases w <;> exact ⟨_, rfl⟩

/-- An access that its segment grants passes the check. -/
theorem checkAccess_of_grants {H : Type} {cache : SegmentCache} {m : Machine H} {access : Access}
    {offset : Dword} {len : Nat} (hg : cache.Grants m.toProcessor access offset len)
    (onStack : Bool) :
    Ends (checkAccess cache onStack offset len access) m
      (fun linear m' => m' = m ∧ linear = cache.base + offset) fun _ _ => False := by
  rw [checkAccess, ends_bind, ends_view]
  by_cases hu : m.usesDescriptors
  · obtain ⟨hn, hr⟩ := hg.rights hu
    simp [hu, hn, hr, hg.bounds]
  · simp [hu, hg.bounds]

/-- A store that faults is one that the host refuses. -/
theorem writeLinear_refused {H : Type} [Host H] (linear : Dword) (bytes : List Byte)
    (m : Machine H) :
    Ends (writeLinear linear bytes) m (fun _ _ => True)
      (fun _ _ => Refuses m.host linear bytes) := by
  simp only [writeLinear, ends_bind, ends_get]
  cases hr : checkRange m.host linear bytes.length with
  | some f => exact .inl (by simp [hr])
  | none =>
    exact (storeEach_ends bytes linear m).mono (fun _ _ _ => trivial) fun _ _ h => .inr h.2

/-- A store that its segment grants faults only when the host refuses it. -/
theorem store_refused {H : Type} [Host H] {m : Machine H} {seg : Seg} {offset : Dword} {w : Width}
    (hg : (m.segs.get seg).Grants m.toProcessor .write offset w.bytes) (value : Dword) :
    Ends (store w seg offset value) m (fun _ _ => True)
      (fun _ _ =>
        Refuses m.host ((m.segs.get seg).base + offset) (bytesOf w.bytes value.toNat)) := by
  rw [store, storeBytes, ends_bind, linearOf, ends_bind, ends_view]
  refine (checkAccess_of_grants (by simpa using hg) _).mono ?_ fun _ _ => False.elim
  rintro linear _ ⟨rfl, rfl⟩
  exact writeLinear_refused _ _ _

end Exec

/-! ## Port instructions -/

/-- The size of the value that a port instruction moves, and where the number of its port comes
from. -/
def Instruction.portOperand? : Instruction → Option (Size × PortSource)
  | .input size source | .output size source => some (size, source)
  | .inputString size | .outputString size => some (size, .register)
  | _ => none

/-- Takes the ports of an instruction from its operands. -/
def Exec.fetchPorts {H : Type} [Host H] (p : Prefixes) (i : Instruction) :
    Exec H (Option PortRange) :=
  match i.portOperand? with
  | some (size, source) => do
    let w ← widthOf p size
    return some ⟨← portNumber p source, w⟩
  | none => return none

/-- At most one access has been made, and it goes through the ports of a range. -/
def MakesAtMost (range : PortRange) (m m' : Machine (Traced H)) : Prop :=
  m'.host.accesses = m.host.accesses ∨
    ∃ access : PortAccess, access.range = range ∧ m'.host.accesses = m.host.accesses ++ [access]

/-- The host refuses the value that a string input reads from a port, at the place of the
destination index. -/
def InputRefused {H : Type} [Host H] (p : Prefixes) (range : PortRange) (m : Machine H) : Prop :=
  let read := readPort m.host range.width range.port
  Refuses read.2 (m.segs.es.base + m.reg (p.addressWidth m.toProcessor) Reg.edi)
    (bytesOf range.width.bytes read.1.toNat)

/-- The access of a string input whose value the host refuses. -/
structure LosesInput (p : Prefixes) (i : Instruction) (range : PortRange)
    (m m' : Machine (Traced H)) : Prop where
  isInput : ∃ size, i = .inputString size
  refused : InputRefused p range m
  made : m'.host.accesses = m.host.accesses ++ [.read range.width range.port]

/-- What an instruction has done with ports when it is completed. -/
inductive CompletesPorts (p : Prefixes) (i : Instruction) (m m' : Machine (Traced H)) : Prop where
  | silent :
    i.portOperand? = none →
    m'.host.accesses = m.host.accesses →
    CompletesPorts p i m m'
  | used {range : PortRange} :
    value? (fetchPorts p i) m = some (some range) →
    MayUse m range →
    MakesAtMost range m m' →
    CompletesPorts p i m m'

/-- What an instruction has done with ports when it faults. -/
inductive FailsPorts (p : Prefixes) (i : Instruction) (m m' : Machine (Traced H)) : Prop where
  | silent :
    m'.host.accesses = m.host.accesses →
    FailsPorts p i m m'
  | lost {range : PortRange} :
    value? (fetchPorts p i) m = some (some range) →
    MayUse m range →
    LosesInput p i range m m' →
    FailsPorts p i m m'

namespace Exec

variable {p : Prefixes} {i : Instruction}

theorem widthOf_observes {H : Type} [Host H] (p : Prefixes) (size : Size) :
    Observes (widthOf p size : Exec H Width) :=
  match size with
  | .byte => .pure _
  | .full => .view _

/-- A port instruction finds out its ports and checks the permission for them.  Then it goes on
as `k` says. -/
theorem portInstruction_ends {size : Size} {source : PortSource}
    (hi : i.portOperand? = some (size, source)) {k : Width → Word → Exec (Traced H) Unit}
    (hk : ∀ w port m, Ends (k w port) m (fun _ m' => MakesAtMost ⟨port, w⟩ m m')
      (fun _ m' => m'.host.accesses = m.host.accesses ∨ LosesInput p i ⟨port, w⟩ m m'))
    (m : Machine (Traced H)) :
    Ends (do
      let w ← widthOf p size
      let port ← portNumber p source
      checkPorts port w
      k w port) m (fun _ m' => CompletesPorts p i m m') (fun _ m' => FailsPorts p i m m') := by
  have hc : CoversSegments (fun _ _ _ => True) m := fun _ _ _ _ _ => trivial
  rw [ends_bind]
  refine Ends.mono ((widthOf_observes p size).finds m) ?_ ?_
  · rintro w m₁ ⟨hm, hw⟩
    rw [hm, ends_bind]
    refine (portNumber_hasEffect p source hc).value.mono (fun port m₁ h₁ => ?_)
      fun _ _ he => .silent (he.accesses_eq (by decide))
    obtain ⟨hport, ha⟩ := h₁
    obtain ⟨eip, log, rfl⟩ := ha.exists_moved
    have hrange : value? (fetchPorts p i) m = some (some ⟨port, w⟩) := by
      rw [fetchPorts, hi]
      dsimp only
      rw [(widthOf_observes p size).value_bind, hw, Option.bind_some, value?_map, hport]
      rfl
    rw [ends_bind]
    refine (checkPorts_ends port w _).mono ?_ ?_
    · rintro _ _ ⟨rfl, hmay⟩
      refine (hk w port _).mono (fun _ _ h => .used hrange hmay h) fun _ _ h => ?_
      rcases h with h | ⟨hinput, hrefused, hmade⟩
      · exact .silent h
      · exact .lost hrange hmay ⟨hinput, hrefused, hmade⟩
    · rintro _ _ ⟨_, rfl⟩
      exact .silent rfl
  · rintro _ _ ⟨⟨_, rfl⟩, -⟩
    exact .silent rfl

/-- A string instruction goes on after its access without another one. -/
theorem advanceAndRepeat_ends (access : PortAccess) {m m₁ : Machine (Traced H)}
    (hm : m₁.host.accesses = m.host.accesses ++ [access]) (p : Prefixes) (r : Reg) (w : Width) :
    Ends (do advance p r w; repeatInstruction p) m₁ (fun _ m' => MakesAtMost access.range m m')
      fun _ _ => False := by
  have hc : CoversSegments (fun _ _ _ => True) m₁ := fun _ _ _ _ _ => trivial
  refine (advanceAndRepeat_hasEffect p r w hc).mono (fun _ _ h => ?_) fun _ _ he => ?_
  · exact .inr ⟨access, rfl, (h.accesses_eq (by decide)).trans hm⟩
  · obtain ⟨_, ⟨⟩, _⟩ := he.fault

/-- A string input reads its port and stores the value, unless the host refuses it. -/
theorem readAndStore_ends {w : Width} {offset : Dword} {m : Machine (Traced H)}
    (hg : (m.segs.get .es).Grants m.toProcessor .write offset w.bytes) (p : Prefixes)
    (port : Word) :
    Ends (do
      let value ← portRead w port
      store w .es offset value
      advance p Reg.edi w
      repeatInstruction p) m (fun _ m' => MakesAtMost ⟨port, w⟩ m m')
      (fun _ m' => m'.host.accesses = m.host.accesses ++ [.read w port] ∧
        Refuses (readPort m.host w port).2 (m.segs.es.base + offset)
          (bytesOf w.bytes (readPort m.host w port).1.toNat)) := by
  have hread := Traced.accesses_readPort m.host w port
  rw [ends_bind]
  refine (portRead_ends w port m).mono ?_ fun _ _ => False.elim
  rintro value m₁ ⟨rfl, log, hm₁⟩
  -- The segment still grants the store after the read: only the host and the log have changed.
  have hg₁ : (m₁.segs.get .es).Grants m₁.toProcessor .write offset w.bytes := by rw [hm₁]; exact hg
  have hstore :=
    (store_hasEffect w .es offset (readPort m.host w port).1).accesses_eq (by decide) m₁
  rw [ends_bind]
  refine (hstore.and (store_refused hg₁ _)).mono ?_ ?_
  · rintro _ m₂ ⟨hstored, -⟩
    rw [hm₁] at hstored
    exact (advanceAndRepeat_ends (.read w port) (hstored.trans hread) p Reg.edi w).mono
      (fun _ _ h => h) fun _ _ => False.elim
  · rintro _ m₂ ⟨hstored, hrefused⟩
    rw [hm₁] at hstored hrefused
    exact ⟨hstored.trans hread, hrefused⟩

/-- A string instruction with nothing left to do makes no access. -/
theorem unlessExhausted_ends {x : Exec (Traced H) Unit} {range : PortRange}
    {err : Machine (Traced H) → Machine (Traced H) → Prop} {m : Machine (Traced H)}
    (hx : ∀ eip log, Ends x { m with eip := eip, log := log }
      (fun _ m' => MakesAtMost range m m')
      (fun _ m' => m'.host.accesses = m.host.accesses ∨ err m m')) :
    Ends (do
      if ← isExhausted p then return
      x) m (fun _ m' => MakesAtMost range m m')
      (fun _ m' => m'.host.accesses = m.host.accesses ∨ err m m') := by
  have hc : CoversSegments (fun _ _ _ => True) m := fun _ _ _ _ _ => trivial
  rw [ends_bind]
  refine (isExhausted_hasEffect p hc).mono (fun exhausted m₁ ha => ?_)
    fun _ _ he => .inl (he.accesses_eq (by decide))
  obtain ⟨eip, log, rfl⟩ := ha.exists_moved
  rw [ends_ite]
  exact ⟨fun _ => .inl rfl, fun _ => hx eip log⟩

theorem input_ends (p : Prefixes) (size : Size) (source : PortSource) (m : Machine (Traced H)) :
    Ends (runInstruction p (.input size source)) m
      (fun _ m' => CompletesPorts p (.input size source) m m')
      (fun _ m' => FailsPorts p (.input size source) m m') := by
  unfold runInstruction input
  refine portInstruction_ends rfl (fun w port m => ?_) m
  rw [ends_bind]
  refine (portRead_ends w port m).mono ?_ fun _ _ => False.elim
  rintro value _ ⟨-, log, rfl⟩
  exact .inr ⟨.read w port, rfl, Traced.accesses_readPort m.host w port⟩

theorem output_ends (p : Prefixes) (size : Size) (source : PortSource) (m : Machine (Traced H)) :
    Ends (runInstruction p (.output size source)) m
      (fun _ m' => CompletesPorts p (.output size source) m m')
      (fun _ m' => FailsPorts p (.output size source) m m') := by
  unfold runInstruction output
  refine portInstruction_ends rfl (fun w port m => ?_) m
  rw [ends_bind, ends_view]
  refine (portWrite_ends w port _ m).mono ?_ fun _ _ => False.elim
  rintro _ _ ⟨log, rfl⟩
  obtain ⟨written, hw⟩ := Traced.accesses_writePort m.host w port (m.reg w Reg.eax)
  exact .inr ⟨.write w port written, rfl, hw⟩

theorem outputString_ends (p : Prefixes) (size : Size) (m : Machine (Traced H)) :
    Ends (runInstruction p (.outputString size)) m
      (fun _ m' => CompletesPorts p (.outputString size) m m')
      (fun _ m' => FailsPorts p (.outputString size) m m') := by
  unfold runInstruction outputString
  refine portInstruction_ends rfl (fun w port m => unlessExhausted_ends fun eip log => ?_) m
  rw [indexRegister, ends_bind, ends_view, ends_bind]
  refine (load_observes w _ _ _).mono ?_ ?_
  · rintro value _ rfl
    rw [ends_bind]
    refine (portWrite_ends w port value _).mono ?_ fun _ _ => False.elim
    rintro _ _ ⟨log, rfl⟩
    obtain ⟨written, hw⟩ := Traced.accesses_writePort m.host w port value
    exact (advanceAndRepeat_ends (.write w port written) (m := m) hw p Reg.esi w).mono
      (fun _ _ h => h) fun _ _ => False.elim
  · rintro _ _ ⟨⟨log, rfl⟩, -⟩
    exact .inl rfl

theorem inputString_ends (p : Prefixes) (size : Size) (m : Machine (Traced H)) :
    Ends (runInstruction p (.inputString size)) m
      (fun _ m' => CompletesPorts p (.inputString size) m m')
      (fun _ m' => FailsPorts p (.inputString size) m m') := by
  unfold runInstruction inputString
  refine portInstruction_ends rfl (fun w port m => unlessExhausted_ends fun eip log => ?_) m
  rw [indexRegister, ends_bind, ends_view, ends_bind, ends_view, ends_bind]
  refine (checkAccess_ends _ _ _ _ _ _).mono ?_ ?_
  · rintro linear _ ⟨rfl, -, hg⟩
    refine (readAndStore_ends hg p port).mono (fun _ _ h => h) ?_
    rintro _ _ ⟨hmade, hrefused⟩
    exact .inr ⟨⟨size, rfl⟩, hrefused, hmade⟩
  · rintro _ _ ⟨⟨log, rfl⟩, -⟩
    exact .inl rfl

end Exec

/-- The effect of an instruction that moves nothing through a port. -/
theorem Instruction.effect_portFree {i : Instruction} (h : i.portOperand? = none) :
    i.effect.PortFree := by
  unfold effect
  split
  all_goals first | decide | cases h

/-- What any instruction does with ports. -/
theorem Exec.runInstruction_ports (p : Prefixes) (i : Instruction) (m : Machine (Traced H)) :
    Ends (runInstruction p i) m (fun _ m' => CompletesPorts p i m m')
      (fun _ m' => FailsPorts p i m m') := by
  cases hport : i.portOperand? with
  | none =>
    have hfree := Instruction.effect_portFree hport
    refine ((runInstruction_touches p i m).and (runInstruction_faults p i m)).mono
      (fun _ _ h => .silent hport (h.1.accesses_eq hfree.answer)) fun _ _ h => .silent ?_
    rcases h.2 with he | he
    · exact he.accesses_eq hfree.fault
    · exact he.accesses_eq (by decide)
  | some operand =>
    cases i with
    | input size source => exact input_ends p size source m
    | output size source => exact output_ends p size source m
    | inputString size => exact inputString_ends p size m
    | outputString size => exact outputString_ends p size m
    | _ => cases hport

/-! ## Steps -/

namespace Machine

/-- The ports of the instruction at the instruction pointer, if it is a port instruction and its
operands can be taken from the code. -/
def portRange? {H : Type} [Host H] (m : Machine H) : Option PortRange :=
  (value? (do
    match ← fetchInstruction with
    | some ⟨p, .ok instruction⟩ => fetchPorts p instruction
    | _ => return none) m).join

/-- The instruction at the instruction pointer is a port instruction. -/
def AtPortInstruction {H : Type} [Host H] (m : Machine H) : Prop :=
  ∃ p i, m.instruction? = some (p, i) ∧ i.portOperand? ≠ none

theorem Fetches.portRange? {H : Type} [Host H] {m m₁ : Machine H} {p : Prefixes} {i : Instruction}
    (h : m.Fetches p i m₁) : m.portRange? = (value? (fetchPorts p i) m₁).join := by
  rw [Machine.portRange?, value?_bind_of_ok h.run]

/-- What a step has done with ports, by how it ends. -/
inductive StepPorts (m : Machine (Traced H)) : StepEnd → Machine (Traced H) → Prop where
  | silent {ending : StepEnd} {m' : Machine (Traced H)} :
    (∃ f, ending = .fault f) ∨ ¬m.AtPortInstruction →
    m'.host.accesses = m.host.accesses →
    StepPorts m ending m'
  | used {range : PortRange} {m' : Machine (Traced H)} :
    m.portRange? = some range →
    MayUse m range →
    MakesAtMost range m m' →
    StepPorts m .completed m'
  | lost {p : Prefixes} {size : Size} {range : PortRange} {f : Fault} {m' : Machine (Traced H)} :
    m.instruction? = some (p, .inputString size) →
    m.portRange? = some range →
    MayUse m range →
    InputRefused p range m →
    m'.host.accesses = m.host.accesses ++ [.read range.width range.port] →
    StepPorts m (.fault f) m'

theorem step_ports (m : Machine (Traced H)) : m.StepPorts m.step.1 m.step.2 := by
  have hruns := m.step_runs
  generalize m.step.1 = ending, m.step.2 = m' at hruns ⊢
  have hnone : m.instruction? = none → ¬m.AtPortInstruction := by
    rintro hi ⟨p, i, hi', -⟩
    simp [hi] at hi'
  cases hruns with
  | @completed p i m₁ m₂ hfetch hr =>
    have hports := (runInstruction_ports p i m₁).of_ok hr
    have hi := hfetch.instruction?
    have hrange := hfetch.portRange?
    obtain ⟨eip, log, rfl⟩ := hfetch.moved
    cases hports with
    | silent hport hacc =>
      refine .silent (.inr ?_) hacc
      rintro ⟨p', i', hi', hport'⟩
      rw [hi] at hi'
      cases hi'
      exact hport' hport
    | used hv hmay hmakes => exact .used (by rw [hrange, hv]; rfl) hmay hmakes
  | @fault p i m₁ m₂ f log hfetch hr =>
    have hports := (runInstruction_ports p i m₁).of_error hr
    have hi := hfetch.instruction?
    have hrange := hfetch.portRange?
    obtain ⟨eip, log, rfl⟩ := hfetch.moved
    cases hports with
    | silent hacc => exact .silent (.inl ⟨f, rfl⟩) hacc
    | lost hv hmay hlost =>
      obtain ⟨⟨size, rfl⟩, hrefused, hmade⟩ := hlost
      exact .lost hi (by rw [hrange, hv]; rfl) hmay hrefused hmade
  | unfetched hi => exact .silent (.inl ⟨_, rfl⟩) rfl
  | never hi => exact .silent (.inr (hnone hi)) rfl

/-- A step has read the port of a string input, and the host has refused to store the value. -/
def InputLost (m m' : Machine (Traced H)) : Prop :=
  ∃ p size range, m.instruction? = some (p, .inputString size) ∧ m.portRange? = some range ∧
    InputRefused p range m ∧ m'.host.accesses = m.host.accesses ++ [.read range.width range.port]

/-- A step that faults has made no access to a port, or it is a string input whose value the host
refuses. -/
theorem accesses_of_fault {m : Machine (Traced H)} {f : Fault} (h : m.step.1 = .fault f) :
    m.step.2.host.accesses = m.host.accesses ∨ m.InputLost m.step.2 := by
  have hports := m.step_ports
  rw [h] at hports
  generalize m.step.2 = m' at hports ⊢
  cases hports with
  | silent _ hacc => exact .inl hacc
  | lost hi hrange _ hrefused hmade => exact .inr ⟨_, _, _, hi, hrange, hrefused, hmade⟩

/-- A machine in real mode before a string input of two bytes, on a host where address `3000`
faults.  The destination index holds `place`. -/
def inputtingTo (place : Dword) : Machine (Traced Ram) :=
  let m := Machine.initial ⟨⟨⟨#[0x6D]⟩, some 0x3000, 0x1234, #[]⟩, []⟩ {}
  { m with
    regs := ((m.setReg .word Reg.edi place).setReg .word Reg.edx 0x60).regs
    eip := 0
    segs := m.segs.set .cs (.realMode 0 false) }

/-- At the end of the segment the input faults before it reads the port. -/
theorem accesses_inputtingTo_end :
    (inputtingTo 0xFFFF).step.1 = .fault (.generalProtection 0) ∧
      (inputtingTo 0xFFFF).step.2.host.accesses = [] ∧
      ((inputtingTo 0xFFFF).step.2.host.accesses = (inputtingTo 0xFFFF).host.accesses ∨
        (inputtingTo 0xFFFF).InputLost (inputtingTo 0xFFFF).step.2) :=
  have hfault : (inputtingTo 0xFFFF).step.1 = .fault (.generalProtection 0) := by decide +kernel
  ⟨hfault, by decide +kernel, accesses_of_fault hfault⟩

/-- At the address that faults the input has read the port before. -/
theorem accesses_inputtingTo_fault :
    (inputtingTo 0x3000).step.1 = .fault (.pageFault 0x3000 2) ∧
      (inputtingTo 0x3000).host.accesses = [] ∧
      (inputtingTo 0x3000).step.2.host.accesses = [.read .word 0x60] := by
  decide +kernel

end Machine

end Ia32
