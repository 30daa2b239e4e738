import Ia32.Proofs.PrivilegeLevels

/-!
# Memory isolation

In protected mode every byte that a step stores is one that a segment lets it
store.  The segments are those in the segment registers before the step, and the
stack of a more privileged level when the step is a call to that level.  Besides
them a far instruction marks descriptors as accessed, one bit in each.
-/

namespace Ia32

open Host Exec

/-! ## What a segment lets store -/

/-- A segment lets `len` bytes be stored from a linear address on: each of them lies at a valid
offset. -/
structure SegmentCache.LetsStore (cache : SegmentCache) (linear : Dword) (len : Nat) : Prop where
  loaded : cache.isNull = false
  writable : cache.writable = true
  inside : ∀ k < len, ∃ offset, linear + BitVec.ofNat 32 k = cache.base + offset ∧
    cache.firstByte ≤ offset ∧ offset ≤ cache.lastByte

/-- A granted store is one that the segment lets happen.  The offsets of its bytes do not go
around. -/
theorem SegmentCache.Grants.letsStore {cache : SegmentCache} {s : Processor} {offset : Dword}
    {len : Nat} (h : cache.Grants s .write offset len) (hu : s.usesDescriptors = true) :
    cache.LetsStore (cache.base + offset) len where
  loaded := (h.rights hu).1
  writable := (h.rights hu).2
  inside k hk := by
    have hb := h.bounds
    simp only [contains, Bool.and_eq_true, decide_eq_true_eq] at hb
    have hlast := cache.lastByte.isLt
    have hn : (offset + BitVec.ofNat 32 k).toNat = offset.toNat + k := by
      rw [BitVec.toNat_add, BitVec.toNat_ofNat, Nat.add_mod_mod]
      exact Nat.mod_eq_of_lt (by omega)
    refine ⟨offset + BitVec.ofNat 32 k, BitVec.add_assoc .., ?_, ?_⟩
    · rw [BitVec.le_def, hn]
      omega
    · rw [BitVec.le_def, hn]
      omega

/-! ## What a step may store -/

variable {H : Type} [Host H]

/-- What a step from a machine may store: bytes of its segments, bytes of the stack that a call
to a more privileged level enters, and marks of descriptors. -/
inductive MayStore (m : Machine H) (h : H) (linear : Dword) (bytes : List Byte) : Prop where
  | segment {seg : Seg} :
    (m.segs.get seg).LetsStore linear bytes.length →
    MayStore m h linear bytes
  | innerStack {stack : SegmentCache} :
    m.EntersStack stack →
    stack.LetsStore linear bytes.length →
    MayStore m h linear bytes
  | mark {selector : Word} :
    m.Marks selector →
    MarkStore m.toProcessor selector h linear bytes →
    MayStore m h linear bytes

theorem permitsStep_mayStore (m : Machine H) (hu : m.usesDescriptors = true) :
    PermitsStep (MayStore m) m where
  segments _ _ _ _ hg := .segment (hg.letsStore hu)
  marks hm _ _ _ hs := .mark hm hs
  stack hs _ _ _ hg := .innerStack hs (hg.letsStore hu)

/-- A far instruction stores nothing but what is permitted. -/
theorem CompletesFar.reaches {permits : H → Dword → List Byte → Prop} {m m' : Machine H}
    {far : FarInstruction} (h : CompletesFar permits m far m') :
    Reaches permits True m.host m'.host := by
  have hload : ∀ {segs eip}, Loads permits m m' segs eip → Reaches permits True m.host m'.host :=
    fun h => h.rest.host.mono (fun _ _ _ hp => hp.2) fun _ => trivial
  cases h with
  | direct _ h => exact hload h
  | gate _ h => exact hload h
  | inner _ h => exact hload h
  | same _ _ h => exact hload h
  | outer _ h => exact hload h

/-- A step in protected mode stores nothing else, whether it is completed or faults. -/
theorem reaches_step (m : Machine H) (hu : m.usesDescriptors = true) :
    Reaches (MayStore m) True m.host m.step.2.host := by
  obtain ⟨m₁, eip, log, retired, hm, hcases⟩ :=
    Machine.step_cases (permitsStep_mayStore m hu) hu
  rw [hm]
  rcases hcases with ⟨S, ha⟩ | ⟨far, -, hc⟩
  · exact ha.host.mono (fun _ _ _ hp => hp.2) fun _ => trivial
  · exact hc.reaches

/-- The call through the gate stores a frame on the inner stack and marks two descriptors. -/
theorem reaches_atGate :
    Machine.atGate.usesDescriptors = true ∧
      Machine.atGate.step.2.host.peekMany 0x70 4 = [0x37, 0x00, 0x00, 0x00] ∧
      Machine.atGate.step.2.host.peekMany 0x0D 1 = [0x9B] ∧
      Reaches (MayStore Machine.atGate) True Machine.atGate.host Machine.atGate.step.2.host :=
  ⟨by decide, by decide +kernel, by decide +kernel, reaches_step Machine.atGate (by decide)⟩

end Ia32
