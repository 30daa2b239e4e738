import Ia32.Exec.Memory
import Ia32.Host.Ram
import Ia32.Proofs.Ends

/-!
# Stores

What a program can do to a host: store groups of bytes, and use ports.  A group
is the bytes of one store.  A host may refuse a group before its first byte, and
a host without manners may even refuse it in the middle.  An orderly host does
not, and it never refuses an access with a fault that belongs to the processor.

`Host.Reaches` says that a host comes out of another one by such accesses, each
group of which is permitted.
-/

namespace Ia32

/-- Whether a fault says that the processor refuses an instruction as such: there is no such
instruction, no unit for it, or no result. -/
def Fault.isRefusal : Fault → Bool
  | .divideError | .invalidOpcode | .deviceNotAvailable => true
  | _ => false

namespace Host

variable {H : Type} [Host H]

/-! ## Groups of bytes -/

/-- Stores bytes from an address on, whether the host refuses or not. -/
def storeAll (h : H) (linear : Dword) : List Byte → H
  | [] => h
  | b :: bs => storeAll (Host.store h linear b) (linear + 1) bs

/-- Whether the host lets each byte of a group pass when the bytes before it are stored. -/
def PassesEach (h : H) (linear : Dword) : List Byte → Prop
  | [] => True
  | b :: bs => Host.storeFault h linear = none ∧ PassesEach (Host.store h linear b) (linear + 1) bs

/-- A host whose faults are those of memory, and which refuses a group as a whole or not at
all. -/
structure Orderly (H : Type) [Host H] : Prop where
  read : ∀ {h : H} {linear f}, Host.read h linear = .error f → f.isRefusal = false
  range : ∀ {h : H} {linear n f}, Host.checkRange h linear n = some f → f.isRefusal = false
  passes : ∀ {h : H} {linear bytes},
    Host.checkRange h linear bytes.length = none → PassesEach h linear bytes

/-! ## What a host comes to -/

/-- One use of a port. -/
inductive PortUse : H → H → Prop where
  | read8 (h : H) (port : Word) : PortUse h (Host.readPort8 h port).2
  | read16 (h : H) (port : Word) : PortUse h (Host.readPort16 h port).2
  | read32 (h : H) (port : Word) : PortUse h (Host.readPort32 h port).2
  | write8 (h : H) (port : Word) (value : Byte) : PortUse h (Host.writePort8 h port value)
  | write16 (h : H) (port value : Word) : PortUse h (Host.writePort16 h port value)
  | write32 (h : H) (port : Word) (value : Dword) : PortUse h (Host.writePort32 h port value)

/-- A host comes out of another one by stores and by uses of ports.  Of each group that is
stored, wholly or in part, `permits` holds: it is told the host before the group, the address
and the bytes. -/
inductive Reaches (permits : H → Dword → List Byte → Prop) (ports : Prop) : H → H → Prop where
  | refl (h : H) : Reaches permits ports h h
  | store {h h' : H} {linear : Dword} {bytes : List Byte} (n : Nat) :
    Reaches permits ports h h' →
    permits h' linear bytes →
    Reaches permits ports h (storeAll h' linear (bytes.take n))
  | port {h h' h'' : H} :
    Reaches permits ports h h' →
    ports →
    PortUse h' h'' →
    Reaches permits ports h h''

namespace Reaches

variable {permits permits' : H → Dword → List Byte → Prop} {ports ports' : Prop} {h h' h'' : H}

theorem trans (first : Reaches permits ports h h') (second : Reaches permits ports h' h'') :
    Reaches permits ports h h'' := by
  induction second with
  | refl => exact first
  | store n _ hp ih => exact .store n ih hp
  | port _ hp hu ih => exact .port ih hp hu

theorem mono (hr : Reaches permits ports h h')
    (hs : ∀ h linear bytes, permits h linear bytes → permits' h linear bytes)
    (hp : ports → ports') : Reaches permits' ports' h h' := by
  induction hr with
  | refl => exact .refl _
  | store n _ h ih => exact .store n ih (hs _ _ _ h)
  | port _ h hu ih => exact .port ih (hp h) hu

/-- Without stores and without ports a host stays. -/
theorem eq_of_nothing (hr : Reaches permits ports h h')
    (hs : ∀ h linear bytes, ¬permits h linear bytes) (hp : ¬ports) : h' = h := by
  induction hr with
  | refl => rfl
  | store _ _ h => exact absurd h (hs _ _ _)
  | port _ h => exact absurd h hp

theorem storeAll (hp : permits h linear bytes) :
    Reaches permits ports h (Host.storeAll h linear bytes) := by
  have hr : Reaches permits ports h h := .refl h
  simpa only [List.take_length] using hr.store bytes.length hp

end Reaches

end Host

/-! ## Writing to a host -/

namespace Exec

open Host

variable {H : Type} [Host H]

/-- Stores happen in order, up to the first one that the host refuses. -/
theorem storeEach_ends (bytes : List Byte) (linear : Dword) (m : Machine H) :
    Ends (storeEach linear bytes) m
      (fun _ m' => m' = { m with host := storeAll m.host linear bytes })
      (fun _ m' => (∃ n, m' = { m with host := storeAll m.host linear (bytes.take n) }) ∧
        ¬PassesEach m.host linear bytes) := by
  induction bytes generalizing linear m with
  | nil => exact rfl
  | cons b bs ih =>
    simp only [storeEach, ends_bind, ends_get]
    cases hf : storeFault m.host linear with
    | some f =>
      refine ⟨⟨0, rfl⟩, fun hp => ?_⟩
      have := hp.1
      simp [hf] at this
    | none =>
      simp only [raiseIf, ends_pure, ends_modify]
      refine (ih (linear + 1) { m with host := Host.store m.host linear b }).mono ?_ ?_
      · rintro _ m' rfl
        rfl
      · rintro f m' ⟨⟨n, rfl⟩, hp⟩
        exact ⟨⟨n + 1, rfl⟩, fun h => hp h.2⟩

/-- A store is done as a whole, or the host refuses it.  An orderly host refuses before the
first byte. -/
theorem writeLinear_ends (linear : Dword) (bytes : List Byte) (m : Machine H) :
    Ends (writeLinear linear bytes) m
      (fun _ m' => m' = { m with host := storeAll m.host linear bytes })
      (fun f m' => (∃ n, m' = { m with host := storeAll m.host linear (bytes.take n) }) ∧
        (Orderly H → m' = m ∧ f.isRefusal = false)) := by
  simp only [writeLinear, ends_bind, ends_get]
  cases hf : checkRange m.host linear bytes.length with
  | some f => exact ⟨⟨0, rfl⟩, fun ho => ⟨rfl, ho.range hf⟩⟩
  | none =>
    simp only [raiseIf, ends_pure]
    refine (storeEach_ends bytes linear m).mono (fun _ _ h => h) ?_
    rintro f m' ⟨hn, hp⟩
    exact ⟨hn, fun ho => absurd (ho.passes hf) hp⟩

end Exec

/-! ## Array memory -/

namespace Ram

open Host

@[simp] theorem poke_faultAt (m : Ram) (address : Dword) (value : Byte) :
    (m.poke address value).faultAt = m.faultAt := by
  unfold poke
  split <;> rfl

/-- A group that does not meet the faulting address passes. -/
theorem passesEach_of_avoids {bytes : List Byte} {m : Ram} {linear bad : Dword}
    (hb : m.faultAt = some bad) (ha : bytes.length ≤ (bad - linear).toNat) :
    PassesEach m linear bytes := by
  induction bytes generalizing m linear with
  | nil => trivial
  | cons b bs ih =>
    have hne : bad - linear ≠ 0 := by
      intro h
      simp [h] at ha
    refine ⟨?_, ih (m := m.poke linear b) (by simp [hb]) ?_⟩
    · have : ¬bad = linear := fun h => hne (by simp [h])
      simp [storeFault, hb, this]
    · simp only [List.length_cons] at ha
      bv_omega

theorem orderly : Orderly Ram where
  read {m linear f} h := by
    simp only [Host.read] at h
    split at h
    · cases h; rfl
    · cases h
  range {m linear n f} h := by
    simp only [Host.checkRange] at h
    split at h
    · split at h
      · cases h; rfl
      · cases h
    · cases h
  passes {m linear bytes} h := by
    cases hb : m.faultAt with
    | some bad =>
      simp only [Host.checkRange, hb] at h
      exact passesEach_of_avoids hb (by simpa using h)
    | none =>
      clear h
      induction bytes generalizing m linear with
      | nil => trivial
      | cons b bs ih => exact ⟨by simp [storeFault, hb], ih (m := m.poke linear b) (by simp [hb])⟩

/-- Ports do not touch the bytes. -/
theorem bytes_of_portUse {m m' : Ram} (h : PortUse m m') : m'.bytes = m.bytes := by
  cases h <;> rfl

/-- Without stores the bytes stay. -/
theorem bytes_of_reaches {permits : Ram → Dword → List Byte → Prop} {ports : Prop} {m m' : Ram}
    (hr : Reaches permits ports m m') (hs : ∀ h linear bytes, ¬permits h linear bytes) :
    m'.bytes = m.bytes := by
  induction hr with
  | refl => rfl
  | store _ _ h => exact absurd h (hs _ _ _)
  | port _ _ hu ih => exact (bytes_of_portUse hu).trans ih

end Ram

end Ia32
