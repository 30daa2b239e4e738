import Mathlib.Data.List.Nodup
import Ia32.Proofs.FarRuns
import Ia32.Proofs.StackFrames

/-!
# Calls through a gate

A call through a 32-bit gate to a more privileged level, as it leaves the machine
when it succeeds: the stack of the level with the frame on it, the entries it has
marked, and the registers.
-/

namespace Ia32

open Host Exec

variable {H : Type} [Host H]

/-! ## The machine after a call -/

/-- The processor after a call to a more privileged level, but for the instruction pointer. -/
def Processor.enterInner (s : Processor) (stack : NewStack) (top : Dword) (cs : SegmentCache) :
    Processor :=
  (((s.setSeg .ss stack.cache).setReg .dword Reg.esp stack.esp).setSp top).setSeg .cs cs

/-- The frame of a call to a more privileged level. -/
structure InnerFrame where
  /-- The stack of the level. -/
  stack : NewStack
  /-- The selector of the stack. -/
  place : Word
  /-- The descriptor of the stack. -/
  descriptor : Descriptor
  /-- The parameters that are copied from the old stack. -/
  parameters : List Dword

namespace InnerFrame

/-- The number of double words of a frame. -/
def count (frame : InnerFrame) : Nat := 4 + frame.parameters.length

/-- The place of a frame. -/
def top (frame : InnerFrame) : Dword := frame.stack.top (4 * frame.count)

end InnerFrame

/-- A call through a 32-bit gate to a more privileged level has built a frame.  Nothing is said of
the instruction pointer, so that the same holds when the next instruction is taken from the
code. -/
structure BuildsFrame (m : Machine H) (target : GateTarget) (frame : InnerFrame) (m' : Machine H) :
    Prop where
  stackAt : StackAt m.farView target.descriptor.dpl frame.place frame.descriptor
  cache : frame.stack.cache = .ofDescriptor frame.place frame.descriptor
  fits : frame.stack.cache.contains frame.top (4 * frame.count) = true
  grants : ∀ value ∈ frameValues m.toProcessor frame.parameters,
    frame.stack.cache.Grants m.toProcessor .write (frame.stack.slot .dword frame.top value.2) 4
  after : ∃ host eip log retired,
    StoredIn (fun a => EntryByte m.toProcessor target.selector a ∨
      EntryByte m.toProcessor frame.place a) m.host host ∧
    m' = { m with
      toProcessor := { m.toProcessor.enterInner frame.stack frame.top
        (.ofDescriptor (withLevel target.selector target.descriptor.dpl) target.descriptor) with
          eip := eip }
      host := storeSlots frame.stack frame.top host (frameValues m.toProcessor frame.parameters)
      log := log
      retired := retired }

variable {m : Machine H}

namespace Exec

/-- As many values are read from the stack as are asked for. -/
theorem length_stackValues (w : Width) (count index : Nat) (m : Machine H) :
    Ends (stackValues w count index) m (fun values m' => values.length = count ∧ m' = m)
      fun _ _ => True := by
  induction count generalizing index with
  | zero => exact ⟨rfl, rfl⟩
  | succ count ih =>
    rw [stackValues, ends_bind, ends_view]
    refine ((load_observes w .ss _).finds m).bind (fun _ _ _ => trivial) fun value _ => ?_
    rw [ends_bind]
    refine (ih (index + 1)).mono ?_ fun _ _ h => h
    rintro values _ ⟨rfl, rfl⟩
    exact ⟨rfl, rfl⟩

theorem callInner_builds (target : GateTarget) (offset : Dword) (count : Nat) (m : Machine H) :
    Ends (callInner target .dword offset count) m
      (fun _ m' => ∃ frame, frame.parameters.length = count ∧ BuildsFrame m target frame m')
      fun _ _ => True := by
  have he : AllowsFaults (fun _ _ => True) m := fun _ _ _ => trivial
  unfold callInner
  refine (innerStack_finds target.descriptor.dpl m).bind he fun stack hstack => ?_
  obtain ⟨place, d, -, hat, hcache⟩ := hstack
  refine ends_guard he rfl fun hfits => ends_guard he rfl fun _ => ?_
  -- The parameters are read before anything is stored: two marks, and then the frame.
  rw [ends_bind]
  refine (length_stackValues .dword count 0 m).mono ?_ fun _ _ h => h
  rintro parameters m ⟨rfl, rfl⟩
  rw [ends_bind]
  refine (markAccessed_stores target.selector m).mono ?_ fun _ _ h => h
  rintro _ _ ⟨host₁, rfl, hcode⟩
  rw [ends_bind]
  refine (markAccessed_stores stack.cache.selector _).mono ?_ fun _ _ h => h
  rintro _ _ ⟨host₂, rfl, hmark⟩
  rw [ends_bind, ends_view, ends_bind]
  refine (storeFrame_stores stack _ _ _).mono ?_ fun _ _ h => h
  rintro _ _ ⟨rfl, hgrants⟩
  rw [ends_bind, ends_note, ends_bind, ends_update, enter, ends_update]
  rw [Bool.not_eq_true', Bool.not_eq_false] at hfits
  refine ⟨⟨stack, place.selector, d, parameters⟩, rfl, hat, hcache, hfits, hgrants, host₂, _, _, _, ?_, rfl⟩
  have hplace : stack.cache.selector = place.selector := by rw [hcache]; rfl
  rw [hplace] at hmark
  exact (hcode.mono fun _ => .inl).trans (hmark.mono fun _ => .inr)

/-- A call through a 32-bit gate to code that is more privileged and not conforming. -/
theorem transferFar_builds {w : Width} {dest : FarTarget} {gate target : Descriptor}
    (hu : m.usesDescriptors = true)
    (hgate : m.farView.descriptor? dest.selector = some gate) (h32 : gate.isCallGate32 = true)
    (htarget : m.farView.descriptor? gate.gateSelector = some target)
    (hconf : target.isConforming = false) (hinner : target.dpl < m.cpl) :
    Ends (transferFar .call w dest.selector dest.offset) m
      (fun _ m' => ∃ frame, frame.parameters.length = gate.gateParameters ∧
        BuildsFrame m ⟨gate.gateSelector, target⟩ frame m')
      fun _ _ => True := by
  have he : AllowsFaults (fun _ _ => True) m := fun _ _ _ => trivial
  have hkind : gate.kind = 0x0C := by simpa [Descriptor.isCallGate32] using h32
  have hcode : gate.isCode = false := by rw [Descriptor.isCode, hkind]; rfl
  have hcall : gate.isCallGate = true := by rw [Descriptor.isCallGate, hkind]; rfl
  rw [transferFar, ends_bind, ends_view, hu]
  unfold transferProtected
  refine ends_guard he rfl fun _ => ?_
  refine ((readDescriptor_observes dest.selector).finds m).bind he fun d hd => ?_
  obtain rfl : gate = d := Option.some.inj (hgate.symm.trans hd)
  rw [hcode, hcall]
  unfold callGate
  refine (gateTarget_finds dest.selector gate m).bind he fun found hfound => ?_
  obtain ⟨-, -, -, hselector, hd', -, -⟩ := hfound
  obtain ⟨selector, d⟩ := found
  obtain rfl : gate.gateSelector = selector := hselector.symm
  obtain rfl : target = d := Option.some.inj (htarget.symm.trans hd')
  refine ends_guard he rfl fun _ => ?_
  refine ((Observes.view _).finds m).bind he fun cpl hv => ?_
  cases hv
  have hw : gateWidth gate = .dword := by rw [gateWidth, h32]; rfl
  rw [ends_ite]
  refine ⟨fun _ => ?_, fun h => absurd ?_ h⟩
  · rw [hw]
    exact callInner_builds _ _ _ m
  · simp [hconf, hinner]

end Exec

/-- A stack can be read. -/
theorem Descriptor.isReadable_of_isWritableData {d : Descriptor} (h : d.isWritableData = true) :
    d.isReadable = true := by
  have hall : ∀ kind : BitVec 5, (kind &&& 0x1A == 0x12) = true →
      (kind &&& 0x18 == 0x10 || kind &&& 0x1A == 0x1A) = true := by decide
  exact hall d.kind h

/-! ## The numbers of a frame -/

theorem map_snd_frameValues (s : Processor) (parameters : List Dword) :
    (frameValues s parameters).map Prod.snd =
      [parameters.length + 3, parameters.length + 2] ++ List.range' 2 parameters.length ++ [1, 0] := by
  simp only [frameValues, List.map_append, List.zipIdx_map_snd, List.map_cons, List.map_nil]

theorem mem_map_snd_frameValues {s : Processor} {parameters : List Dword} {k : Nat} :
    k ∈ (frameValues s parameters).map Prod.snd ↔ k < 4 + parameters.length := by
  rw [map_snd_frameValues]
  simp only [List.mem_append, List.mem_range'_1, List.mem_cons, List.not_mem_nil, or_false]
  omega

theorem nodup_map_snd_frameValues (s : Processor) (parameters : List Dword) :
    ((frameValues s parameters).map Prod.snd).Nodup := by
  rw [map_snd_frameValues]
  simp only [List.nodup_append]
  refine ⟨⟨by simp, List.nodup_range', ?_⟩, by decide, ?_⟩
  · intro a ha b hb
    simp only [List.mem_cons, List.not_mem_nil, or_false, List.mem_range'_1] at ha hb
    omega
  · intro a ha b hb
    simp only [List.mem_append, List.mem_cons, List.not_mem_nil, or_false, List.mem_range'_1] at ha hb
    omega

/-! ## The registers after a call -/

theorem sp_enterInner (s : Processor) (stack : NewStack) (offset : Dword) (cs : SegmentCache) :
    (s.enterInner stack (stack.wrap offset) cs).sp = stack.wrap offset := by
  have hidem : stack.wrap (stack.wrap offset) = stack.wrap offset := by
    unfold NewStack.wrap
    split
    · rfl
    · exact and_lowWord_idem offset
  exact (Processor.sp_setSp _ _).trans hidem

/-- Only the stack pointer has changed. -/
theorem regs_enterInner (s : Processor) (stack : NewStack) (top : Dword) (cs : SegmentCache) :
    ((s.enterInner stack top cs).setReg .dword Reg.esp (s.reg .dword Reg.esp)).regs = s.regs := by
  have hset (x y : Dword) :
      ((s.regs.set Reg.esp x).set Reg.esp y).set Reg.esp (s.regs.get Reg.esp) = s.regs := by
    rw [Vector.set_set, Vector.set_set]
    exact Vector.set_getElem_self _
  unfold Processor.enterInner Processor.setSp
  split
  · exact hset _ _
  · exact hset _ _

/-! ## Memory after a call -/

/-- An address belongs to the `n` double words on top of the stack. -/
def FrameByte (s : Processor) (n : Nat) (a : Dword) : Prop :=
  ∃ k < n, Spans (s.segs.ss.base + slot s .dword s.sp k) 4 a

/-- The `n` double words on top of the stack of `m'` and the descriptor tables of `m` are in a
region.  No two of them overlap. -/
structure FrameApart (A : Dword → Prop) (m m' : Machine H) (n : Nat) : Prop where
  frame : ∀ a, FrameByte m'.toProcessor n a → A a
  entries : ∀ selector a, EntryByte m.toProcessor selector a → A a
  apart : ∀ selector a, FrameByte m'.toProcessor n a → ¬EntryByte m.toProcessor selector a
  tables : TablesApart m.toProcessor

namespace BuildsFrame

variable {m' : Machine H} {target : GateTarget} {frame : InnerFrame} {A : Dword → Prop}

/-- The machine may go on to the next instruction. -/
theorem moved (h : BuildsFrame m target frame m') (eip : Dword) (log : Log)
    (retired : Fin UInt64.size) :
    BuildsFrame m target frame { m' with eip := eip, log := log, retired := retired } := by
  obtain ⟨host, _, _, _, hs, rfl⟩ := h.after
  exact ⟨h.stackAt, h.cache, h.fits, h.grants, host, _, _, _, hs, rfl⟩

theorem ss_eq (h : BuildsFrame m target frame m') : m'.segs.ss = frame.stack.cache := by
  obtain ⟨host, _, _, _, -, rfl⟩ := h.after
  rfl

theorem cs_eq (h : BuildsFrame m target frame m') : m'.segs.cs =
    .ofDescriptor (withLevel target.selector target.descriptor.dpl) target.descriptor := by
  obtain ⟨host, _, _, _, -, rfl⟩ := h.after
  rfl

theorem usesDescriptors_eq (h : BuildsFrame m target frame m') :
    m'.usesDescriptors = m.usesDescriptors := by
  obtain ⟨host, _, _, _, -, rfl⟩ := h.after
  rfl

theorem entryByte_eq (h : BuildsFrame m target frame m') :
    EntryByte m'.toProcessor = EntryByte m.toProcessor := by
  obtain ⟨host, _, _, _, -, rfl⟩ := h.after
  rfl

theorem data_eq (h : BuildsFrame m target frame m') {seg : Seg} (hcs : seg ≠ .cs)
    (hss : seg ≠ .ss) : m'.segs.get seg = m.segs.get seg := by
  obtain ⟨host, _, _, _, -, rfl⟩ := h.after
  exact (Segments.get_set_of_ne _ _ hcs).trans (Segments.get_set_of_ne _ _ hss)

theorem regs_eq (h : BuildsFrame m target frame m') :
    (m'.setReg .dword Reg.esp (m.reg .dword Reg.esp)).regs = m.regs := by
  obtain ⟨host, _, _, _, -, rfl⟩ := h.after
  exact regs_enterInner m.toProcessor frame.stack frame.top
    (.ofDescriptor (withLevel target.selector target.descriptor.dpl) target.descriptor)

theorem sp_eq (h : BuildsFrame m target frame m') : m'.sp = frame.top := by
  obtain ⟨host, _, _, _, -, rfl⟩ := h.after
  exact sp_enterInner _ _ _ _

theorem slot_eq (h : BuildsFrame m target frame m') (k : Nat) :
    slot m'.toProcessor .dword m'.sp k = frame.stack.slot .dword frame.top k := by
  rw [slot, Processor.wrapStack, Processor.stack32, h.ss_eq, h.sp_eq]
  rfl

theorem slotByte_iff (h : BuildsFrame m target frame m') {a : Dword} :
    frame.stack.SlotByte frame.top ((frameValues m.toProcessor frame.parameters).map Prod.snd) a ↔
      FrameByte m'.toProcessor frame.count a := by
  simp only [NewStack.SlotByte, FrameByte, mem_map_snd_frameValues, h.slot_eq, h.ss_eq]
  rfl

/-- The entries that are marked and the frame are all that is stored. -/
theorem storedIn (h : BuildsFrame m target frame m') :
    StoredIn (fun a => EntryByte m.toProcessor target.selector a ∨
      EntryByte m.toProcessor frame.place a ∨ FrameByte m'.toProcessor frame.count a)
      m.host m'.host := by
  obtain ⟨host, _, _, _, hmarks, hm⟩ := h.after
  have hslots := storedIn_storeSlots frame.stack frame.top
    (frameValues m.toProcessor frame.parameters) host
  have hhost : m'.host = _ := congrArg Machine.host hm
  rw [hhost]
  exact (hmarks.mono fun _ => .imp_right .inl).trans
    (hslots.mono fun _ ha => .inr (.inr (h.slotByte_iff.1 ha)))

theorem storedIn_apart (h : BuildsFrame m target frame m') (ha : FrameApart A m m' frame.count) :
    StoredIn A m.host m'.host := by
  refine h.storedIn.mono ?_
  rintro a (ha' | ha' | ha')
  · exact ha.entries _ a ha'
  · exact ha.entries _ a ha'
  · exact ha.frame a ha'

/-- The values of the frame stand on top of the stack. -/
theorem hostBytes_slot (h : BuildsFrame m target frame m') (hb : Backs A m.host)
    (ha : FrameApart A m m' frame.count) (hcount : frame.count ≤ 2 ^ 14) {value : Dword} {k : Nat}
    (hv : (value, k) ∈ frameValues m.toProcessor frame.parameters) :
    hostBytes m'.host (m'.segs.ss.base + slot m'.toProcessor .dword m'.sp k) 4
      = .ok (bytesOf 4 value.toNat) := by
  obtain ⟨host, _, _, _, hmarks, hm⟩ := h.after
  have hhost : m'.host = _ := congrArg Machine.host hm
  have hb' : Backs A host :=
    hb.of_storedIn (hmarks.mono fun a => Or.rec (ha.entries _ a) (ha.entries _ a))
  rw [h.slot_eq, h.ss_eq, hhost]
  refine hostBytes_storeSlots hb' (fun a hs => ha.frame a (h.slotByte_iff.1 hs))
    (nodup_map_snd_frameValues _ _) (fun k hk => ?_) hv
  exact Nat.lt_of_lt_of_le (mem_map_snd_frameValues.1 hk) hcount

/-- The values of the frame are read back. -/
theorem load_slot (h : BuildsFrame m target frame m') (hb : Backs A m.host)
    (ha : FrameApart A m m' frame.count) (hcount : frame.count ≤ 2 ^ 14) {value : Dword} {k : Nat}
    (hv : (value, k) ∈ frameValues m.toProcessor frame.parameters) :
    value? (load .dword .ss (slot m'.toProcessor .dword m'.sp k)) m' = some value := by
  have hgrants : (m'.segs.get .ss).Grants m'.toProcessor .read
      (slot m'.toProcessor .dword m'.sp k) 4 := by
    have hss : m'.segs.get .ss = .ofDescriptor frame.place frame.descriptor := h.ss_eq.trans h.cache
    refine ⟨fun _ => ?_, ?_⟩
    · rw [hss]
      exact ⟨rfl, Descriptor.isReadable_of_isWritableData h.stackAt.writable⟩
    · rw [hss, h.slot_eq, ← h.cache]
      exact (h.grants _ hv).bounds
  have hbytes := loadBytes_of_grants hgrants (h.hostBytes_slot hb ha hcount hv)
  rw [load, value?_map]
  have hvalue : value? (loadBytes .ss (slot m'.toProcessor .dword m'.sp k) 4) m'
      = some (bytesOf 4 value.toNat) := value?_of_ok hbytes
  refine (congrArg (Option.map _) hvalue).trans (congrArg some ?_)
  exact ofNat_littleEndian_bytesOf 4 value

/-- The entries of other descriptors than those of the new segments are as they were. -/
theorem descriptor?_eq (h : BuildsFrame m target frame m') (hb : Backs A m.host)
    (ha : FrameApart A m m' frame.count)
    (ht : m.farView.descriptor? target.selector = some target.descriptor) {selector : Word}
    {d : Descriptor} (hd : m.farView.descriptor? selector = some d) (hcode : d ≠ target.descriptor)
    (hstack : d ≠ frame.descriptor) : m'.farView.descriptor? selector = some d := by
  obtain ⟨hentry, bytes, hbytes, rfl⟩ := descriptor?_eq_some_iff.1 hd
  have hsame : hasEntry m'.toProcessor selector = hasEntry m.toProcessor selector ∧
      entryAddress m'.toProcessor selector = entryAddress m.toProcessor selector := by
    obtain ⟨host, _, _, _, -, rfl⟩ := h.after
    exact ⟨rfl, rfl⟩
  refine descriptor?_eq_some_iff.2 ⟨hsame.1.trans hentry, bytes, ?_, rfl⟩
  rw [hsame.2, ← hbytes]
  refine hostBytes_of_storedIn hb h.storedIn ?_ (fun i hi => ha.entries _ _ ⟨hentry, i, hi, rfl⟩) ?_
  · rintro a (ha' | ha' | ha')
    · exact ha.entries _ a ha'
    · exact ha.entries _ a ha'
    · exact ha.frame a ha'
  · intro i hi
    have hbyte : EntryByte m.toProcessor selector (entryAddress m.toProcessor selector + .ofNat 32 i) :=
      ⟨hentry, i, hi, rfl⟩
    rintro (ha' | ha' | ha')
    · exact entryByte_apart ha.tables hd ht hcode hbyte ha'
    · exact entryByte_apart ha.tables hd h.stackAt.descriptor hstack hbyte ha'
    · exact ha.apart _ _ ha' hbyte

end BuildsFrame

end Ia32
