import Ia32.Proofs.FarChecks
import Ia32.Proofs.TransferEffects

/-!
# Far transfers

What a far transfer or a far return has checked when it succeeds, which segments
it loads then, and where it stores.  Everything it looks at is looked at before
its first store, so that all of this can be said of the machine before the
transfer.  The registers are loaded last: a transfer that faults leaves nothing
behind but stores.
-/

namespace Ia32

open Host Exec

variable {H : Type} [Host H]

/-! ## Marks -/

/-- A store that marks the entry of a selector as accessed.  The entry lies inside its table.  The
upper double word of it is stored as it is, but for bit 8, which was clear and is set. -/
structure MarkStore (s : Processor) (selector : Word) (h : H) (linear : Dword)
    (bytes : List Byte) : Prop where
  entry : hasEntry s selector = true
  place : linear = entryAddress s selector + 4
  marked : ∃ high : Dword, hostBytes h linear 4 = .ok (bytesOf 4 high.toNat) ∧
    high.getLsbD 8 = false ∧ bytes = bytesOf 4 (high ||| 0x100).toNat

/-- The mark of a selector is permitted. -/
def CoversMark (permits : H → Dword → List Byte → Prop) (s : Processor) (selector : Word) : Prop :=
  ∀ h linear bytes, MarkStore s selector h linear bytes → permits h linear bytes

variable {permits : H → Dword → List Byte → Prop} {m m' : Machine H}

theorem Agree.hasEntry_eq {S : Footprint} (ha : Agree permits S m m') (selector : Word) :
    hasEntry m'.toProcessor selector = hasEntry m.toProcessor selector := by
  unfold hasEntry tableLast
  rw [ha.ldtr, ha.gdtr]

theorem Agree.entryAddress_eq {S : Footprint} (ha : Agree permits S m m') (selector : Word) :
    entryAddress m'.toProcessor selector = entryAddress m.toProcessor selector := by
  simp [entryAddress, tableBase, ha.ldtr, ha.gdtr]

/-- Where the accessed mark of an entry is stored does not change before it is stored. -/
theorem CoversMark.of_agree {S : Footprint} {selector : Word}
    (hm : CoversMark permits m.toProcessor selector) (ha : Agree permits S m m') :
    CoversMark permits m'.toProcessor selector := by
  intro h linear bytes ⟨hentry, hlinear, hmarked⟩
  rw [ha.hasEntry_eq] at hentry
  rw [ha.entryAddress_eq] at hlinear
  exact hm h linear bytes ⟨hentry, hlinear, hmarked⟩

/-- The upper double word of an entry is made of its last four bytes. -/
theorem Descriptor.ofBytes_high {bytes : List Byte} (hl : bytes.length = 8) :
    bytesOf 4 (ofBytes bytes).high.toNat = bytes.drop 4 := by
  have hd : (bytes.drop 4).length = 4 := by simp [hl]
  have hb : bytesOf 4 (littleEndian (bytes.drop 4)) = bytes.drop 4 := by
    simpa only [hd] using bytesOf_littleEndian (bytes.drop 4)
  have hlt : littleEndian (bytes.drop 4) < 2 ^ 32 := by
    rw [← hb, littleEndian_bytesOf]
    exact Nat.mod_lt _ (by decide)
  simpa only [ofBytes, BitVec.toNat_ofNat, Nat.mod_eq_of_lt hlt] using hb

theorem Descriptor.getLsbD_of_isAccessed {d : Descriptor} (h : d.isAccessed = false) :
    d.high.getLsbD 8 = false := by
  have hz : d.high &&& 0x100 = 0 := by simpa [isAccessed] using h
  have hb := congrArg (·.getLsbD 8) hz
  simpa using hb

/-- The effect of a far transfer up to the registers that it loads. -/
def Effect.transfers : Effect := ⟨[.stackPointer, .memory], some [.memory, .tornMemory], none⟩

namespace Exec

/-- Bytes that are read from the middle on. -/
theorem hostBytes_drop {h : H} {linear : Dword} (n k : Nat) {bytes : List Byte}
    (hb : hostBytes h linear (n + k) = .ok bytes) :
    hostBytes h (linear + BitVec.ofNat 32 n) k = .ok (bytes.drop n) := by
  induction n generalizing linear bytes with
  | zero => simpa using hb
  | succ n ih =>
    rw [Nat.succ_add, hostBytes] at hb
    simp only [bind, Except.bind] at hb
    split at hb
    next => cases hb
    next =>
      split at hb
      next => cases hb
      next hr =>
        cases hb
        have ha : linear + BitVec.ofNat 32 (n + 1) = linear + 1 + BitVec.ofNat 32 n := by
          rw [Nat.add_comm n 1, BitVec.ofNat_add, ← BitVec.add_assoc]
          rfl
        rw [ha, List.drop_succ_cons]
        exact ih hr

/-- A descriptor that is read is in the table, and its bytes are those of the memory. -/
theorem readDescriptor_finds (selector : Word) (m : Machine H) :
    Finds (readDescriptor selector) m (fun d => hasEntry m.toProcessor selector = true ∧
      ∃ old, hostBytes m.host (entryAddress m.toProcessor selector) 8 = .ok old ∧
        d = .ofBytes old) := by
  unfold readDescriptor
  refine ((Observes.view _).finds m).bind (Finds.allows m) fun present hv => ?_
  cases hv
  refine ends_guard (Finds.allows m) rfl fun hp => ?_
  refine ((Observes.view _).finds m).bind (Finds.allows m) fun address hv => ?_
  cases hv
  simp only [readLinear, bind_assoc]
  refine (Observes.get.finds m).bind (Finds.allows m) fun m₁ hv => ?_
  cases hv
  cases hb : hostBytes m.host (entryAddress m.toProcessor selector) 8 with
  | ok old => exact ⟨rfl, by simpa using hp, old, rfl, rfl⟩
  | error f =>
    obtain ⟨address, hr⟩ := exists_read_of_hostBytes hb
    exact ⟨⟨m.log, rfl⟩, fun ho => ho.read hr⟩

/-- The mark is the only store to a table. -/
theorem markAccessed_ends {selector : Word} (hm : CoversMark permits m.toProcessor selector) :
    Ends (markAccessed selector) m (fun _ m' => Agree permits Effect.writes.answer m m')
      (fun f m' => Effect.writes.Faults permits m f m') := by
  have he : AllowsFaults (fun f m' => Effect.writes.Faults permits m f m') m := fun f log hf =>
    ⟨⟨_, rfl, .moved _ m m.eip log⟩, fun hr ho => by simp [hf ho] at hr⟩
  unfold markAccessed
  refine (readDescriptor_finds selector m).bind he fun d hd => ?_
  obtain ⟨hentry, old, hold, rfl⟩ := hd
  rw [ends_ite]
  refine ⟨fun ha => ?_, fun _ => .refl _ m⟩
  rw [ends_bind, ends_view]
  have hhigh := Descriptor.ofBytes_high (length_hostBytes hold)
  refine writeLinear_effect (hm _ _ _ ⟨hentry, rfl, (Descriptor.ofBytes old).high, ?_, ?_, rfl⟩)
  · rw [hhigh]
    exact hostBytes_drop 4 4 hold
  · exact Descriptor.getLsbD_of_isAccessed (by simpa using ha)

/-! ## Frames -/

/-- A far transfer may fault as long as it has changed nothing. -/
theorem transfers_allowsFaults (permits : H → Dword → List Byte → Prop) (m : Machine H) :
    AllowsFaults (fun f m' => Effect.transfers.Faults permits m f m') m := fun _ log hf =>
  ⟨⟨_, rfl, .moved _ m m.eip log⟩, fun hr ho => by simp [hf ho] at hr⟩

theorem reserve_observes (bytes : Nat) : Observes (reserve bytes : Exec H Dword) := by
  refine .bind (.view _) fun top => .bind (.view _) fun fits => ?_
  exact .ite (.bind (.throw rfl) fun _ => .pure top) (.pure top)

theorem storeReturn_hasEffect (w : Width) (top : Dword) :
    HasEffect .transfers (storeReturn w top : Exec H Unit) := by
  have hu : HasEffect (.changes [.stackPointer]) (update (·.setSp top) : Exec H Unit) :=
    .update fun _ m => setSp_agree m top
  have hs : HasEffect ⟨[.memory, .stackPointer], some [.tornMemory], none⟩ (do
      store w .ss (← view (slot · w top 1)) ((← view (·.segs.cs.selector)).setWidth 32)
      update (·.setSp top) : Exec H Unit) := by
    refine .skip (.view _) fun place => .skip (.view _) fun selector => ?_
    exact .bind (store_hasEffect w .ss place _) (fun _ => hu) (by decide)
  refine .skip (.view _) fun eip => ?_
  exact .bind (store_hasEffect w .ss top eip) (fun _ => hs) (by decide)

theorem storeThrough_ends {cache : SegmentCache} (hc : CoversCache permits m.toProcessor cache)
    (w : Width) (offset value : Dword) :
    Ends (storeThrough w cache offset value) m
      (fun _ m' => Agree permits Effect.writes.answer m m')
      (fun f m' => Effect.writes.Faults permits m f m') := by
  rw [storeThrough, ends_bind]
  refine (checkAccess_ends cache true offset w.bytes .write m).mono ?_ ?_
  · rintro linear m' ⟨rfl, rfl, hg⟩
    exact writeLinear_effect (hc _ offset _ (by simpa using hg))
  · rintro f m' ⟨⟨log, rfl⟩, hf⟩
    exact ⟨⟨_, rfl, .moved _ m m.eip log⟩, fun hr => by simp [hf] at hr⟩

/-- Storing a frame stores its values one after the other. -/
theorem storeFrame_ends {stack : NewStack} (hc : CoversCache permits m.toProcessor stack.cache)
    (w : Width) (top : Dword) (values : List (Dword × Nat)) :
    Ends (storeFrame w stack top values) m (fun _ m' => Agree permits [.memory] m m')
      (fun f m' => Effect.transfers.Faults permits m f m') := by
  induction values generalizing m with
  | nil => exact .refl _ m
  | cons value rest ih =>
    simp only [storeFrame, ends_bind]
    refine (storeThrough_ends hc w _ _).mono (fun _ m₁ ha => ?_) fun _ _ h => h.weaken (by decide)
    refine (ih (hc.of_agree ha)).mono (fun _ _ h => ha.trans h) fun f m₂ h => ?_
    exact (h.after ha).weaken (by decide)

end Exec

/-! ## Loading the code segment -/

/-- The machine after a far transfer: the segment registers and the instruction pointer are
loaded, and besides them the general registers and memory have changed at most. -/
structure Loads (permits : H → Dword → List Byte → Prop) (m m' : Machine H) (segs : Segments)
    (eip : Dword) : Prop where
  segs : m'.segs = segs
  eip : m'.eip = eip
  rest : Agree permits [.registers, .stackPointer, .memory] m { m' with segs := m.segs }

theorem Loads.of_agree {S : Footprint} (ha : Agree permits S m m')
    (hs : S ⊆ [.registers, .stackPointer, .memory]) {segs segs' : Segments} (h : segs' = segs)
    {eip : Dword} {regs : Vector Dword 8} {log : Log} :
    Loads permits m { m' with segs := segs', eip := eip, regs := regs, log := log } segs eip where
  segs := h
  eip := rfl
  rest := by
    rw [← ha.segs]
    have hr : Agree permits [.registers] m' { m' with regs := regs } := .ofRegs m' regs
    have hm := hr.trans (.moved _ { m' with regs := regs } eip log)
    exact (ha.mono hs).trans (hm.mono (by decide))

/-- What is loaded, seen from the machine before the fetch of the instruction. -/
theorem Loads.of_moved {eip₀ : Dword} {log : Log} {segs : Segments} {eip : Dword}
    (h : Loads permits { m with eip := eip₀, log := log } m' segs eip) :
    Loads permits m m' segs eip :=
  ⟨h.segs, h.eip, (Agree.moved _ m eip₀ log).trans h.rest⟩

/-- The general registers may change after the load. -/
theorem Loads.setRegs {segs : Segments} {eip : Dword} (h : Loads permits m m' segs eip)
    (regs : Vector Dword 8) : Loads permits m { m' with regs := regs } segs eip :=
  have hr : Agree permits [.registers] { m' with segs := m.segs }
    { m' with segs := m.segs, regs := regs } := .ofRegs _ regs
  ⟨h.segs, h.eip, h.rest.trans (hr.mono (by decide))⟩

namespace Exec

/-- The last step of a transfer: the segment is loaded, and the pointer is at the target. -/
theorem enter_ends {S : Footprint} (ha : Agree permits S m m')
    (hs : S ⊆ [.registers, .stackPointer, .memory]) (cs : SegmentCache) (offset : Dword)
    {err : Fault → Machine H → Prop} :
    Ends (enter cs offset) m' (fun _ m'' => Loads permits m m'' (m.segs.set .cs cs) offset) err := by
  rw [enter, ends_update]
  exact .of_agree ha hs (by simp only [Processor.setSeg, ha.segs])

/-- Entering code without a change of stacks loads the code segment alone. -/
theorem enterCode_ends (hc : CoversSegments permits m) {selector : Word}
    (hm : CoversMark permits m.toProcessor selector) (d : Descriptor) (level : Byte)
    (offset : Dword) (frame : Option Width) :
    Ends (enterCode selector d level offset frame) m
      (fun _ m' => Loads permits m m'
        (m.segs.set .cs (.ofDescriptor (withLevel selector level) d)) offset)
      (fun f m' => Effect.transfers.Faults permits m f m') := by
  have he := transfers_allowsFaults permits m
  -- Whether a return address is stored or not, the rest is the same.
  have hrest : ∀ action : Exec H Unit, HasEffect .transfers action → Ends (do
      markAccessed selector
      action
      enter (.ofDescriptor (withLevel selector level) d) offset) m
      (fun _ m' => Loads permits m m'
        (m.segs.set .cs (.ofDescriptor (withLevel selector level) d)) offset)
      (fun f m' => Effect.transfers.Faults permits m f m') := by
    intro action haction
    rw [ends_bind]
    refine (markAccessed_ends hm).mono (fun _ m₁ h₁ => ?_) fun _ _ h => h.weaken (by decide)
    rw [ends_bind]
    refine (haction (hc.of_agree h₁)).mono (fun _ m₂ h₂ => ?_) fun f m₂ h₂ => ?_
    · exact enter_ends (h₁.append h₂) (by decide) _ offset
    · exact (h₂.after h₁).weaken (by decide)
  unfold enterCode
  cases frame with
  | none =>
    simp only [Option.mapM_none, pure_bind]
    exact ends_guard he rfl fun _ => hrest (pure ()) (.pure _)
  | some w =>
    simp only [Option.mapM_some, map_eq_pure_bind, bind_assoc, pure_bind]
    refine ((reserve_observes (2 * w.bytes)).finds m).bind he fun top _ => ?_
    exact ends_guard he rfl fun _ => hrest (storeReturn w top) (storeReturn_hasEffect w top)

/-! ## Gates -/

/-- What is known of the target of a gate. -/
theorem gateTarget_finds (selector : Word) (gate : Descriptor) (m : Machine H) :
    Finds (gateTarget selector gate) m (fun target =>
      m.cpl ≤ gate.dpl ∧ requestedLevel selector ≤ gate.dpl ∧ gate.isPresent = true ∧
      target.selector = gate.gateSelector ∧
      m.farView.descriptor? gate.gateSelector = some target.descriptor ∧
      target.descriptor.isCode = true ∧ target.descriptor.dpl ≤ m.cpl) := by
  have he := Finds.allows m
  unfold gateTarget
  refine ((Observes.view _).finds m).bind he fun cpl hv => ?_
  cases hv
  refine ends_guard he rfl fun hlevel => ends_guard he rfl fun hpresent => ends_guard he rfl fun _ => ?_
  refine ((readDescriptor_observes _).finds m).bind he fun d hd => ?_
  refine ends_guard he rfl fun hcode => ⟨rfl, ?_⟩
  simp only [Bool.or_eq_true, decide_eq_true_eq, not_or, BitVec.not_lt, Bool.not_eq_true',
    Bool.not_eq_false] at hlevel hpresent hcode
  exact ⟨hlevel.1, hlevel.2, hpresent, rfl, hd, hcode.1, hcode.2⟩

/-! ## Calls to a more privileged level -/

theorem readStackDescriptor_finds (selector : Word) (m : Machine H) :
    Finds (readStackDescriptor selector) m (fun d => m.farView.descriptor? selector = some d) := by
  unfold Finds readStackDescriptor
  rw [ends_tryCatch]
  refine ((readDescriptor_observes selector).finds m).mono (fun _ _ h => h) ?_
  rintro f m' ⟨hlog, hf⟩
  split
  · exact ⟨hlog, fun _ => rfl⟩
  · exact ⟨hlog, hf⟩

/-- What is known of the stack of a level. -/
theorem innerStack_finds (level : Byte) (m : Machine H) :
    Finds (innerStack level) m (fun new => ∃ place stack, m.farView.taskStack? level = some place ∧
      StackAt m.farView level place.selector stack ∧
      new.cache = .ofDescriptor place.selector stack) := by
  have he := Finds.allows m
  unfold innerStack
  refine ((taskStack_observes level).finds m).bind he fun place hplace => ?_
  refine ends_guard he rfl fun _ => ?_
  refine (readStackDescriptor_finds place.selector m).bind he fun d hd => ?_
  refine ends_guard he rfl fun hstack => ends_guard he rfl fun hpresent => ⟨rfl, place, d, hplace, ?_, rfl⟩
  simp only [Bool.or_eq_true, bne_iff_ne, ne_eq, Bool.not_eq_true', not_or, Decidable.not_not,
    Bool.not_eq_false] at hstack hpresent
  exact ⟨hd, hstack.1.1, hstack.1.2, hstack.2, hpresent⟩

/-- Loading the stack of another level, and then the code segment. -/
theorem loadStackAndEnter_ends {S : Footprint} (ha : Agree permits S m m')
    (hs : S ⊆ [.registers, .stackPointer, .memory]) (stack cs : SegmentCache) (esp top offset : Dword)
    {err : Fault → Machine H → Prop} :
    Ends (do
      update fun s => ((s.setSeg .ss stack).setReg .dword Reg.esp esp).setSp top
      enter cs offset) m'
      (fun _ m'' => Loads permits m m'' ((m.segs.set .ss stack).set .cs cs) offset) err := by
  rw [ends_bind, ends_update, enter, ends_update]
  exact .of_agree ha hs (by simp only [Processor.setSeg, Processor.setReg, Processor.setSp, ha.segs])

theorem callInner_ends (target : GateTarget) (w : Width) (offset : Dword) (count : Nat)
    (hp : ∀ place stack, m.farView.taskStack? target.descriptor.dpl = some place →
      StackAt m.farView target.descriptor.dpl place.selector stack →
      CoversMark permits m.toProcessor target.selector ∧
        CoversMark permits m.toProcessor place.selector ∧
        CoversCache permits m.toProcessor (.ofDescriptor place.selector stack)) :
    Ends (callInner target w offset count) m
      (fun _ m' => ∃ place stack, m.farView.taskStack? target.descriptor.dpl = some place ∧
        StackAt m.farView target.descriptor.dpl place.selector stack ∧
        Loads permits m m' ((m.segs.set .ss (.ofDescriptor place.selector stack)).set .cs
          (.ofDescriptor (withLevel target.selector target.descriptor.dpl) target.descriptor)) offset)
      (fun f m' => Effect.transfers.Faults permits m f m') := by
  have he := transfers_allowsFaults permits m
  unfold callInner
  refine (innerStack_finds target.descriptor.dpl m).bind he fun new hnew => ?_
  obtain ⟨place, stack, hplace, hat, hcache⟩ := hnew
  obtain ⟨hcode, hmark, hcover⟩ := hp place stack hplace hat
  obtain ⟨cache, esp⟩ := new
  simp only at hcache
  subst hcache
  refine ends_guard he rfl fun _ => ends_guard he rfl fun _ => ?_
  refine ((stackValues_observes w count 0).finds m).bind he fun parameters _ => ?_
  rw [ends_bind]
  refine (markAccessed_ends hcode).mono (fun _ m₁ h₁ => ?_) fun _ _ h => h.weaken (by decide)
  rw [ends_bind]
  refine (markAccessed_ends (hmark.of_agree h₁)).mono (fun _ m₂ h₂ => ?_) fun _ _ h₂ =>
    (h₂.after h₁).weaken (by decide)
  have h₁₂ := h₁.append h₂
  rw [ends_bind, ends_view, ends_bind]
  refine (storeFrame_ends (hcover.of_agree h₁₂) w _ _).mono (fun _ m₃ h₃ => ?_) fun _ _ h₃ =>
    (h₃.after h₁₂).weaken (by decide)
  rw [ends_bind, ends_note]
  refine (loadStackAndEnter_ends ((h₁₂.append h₃).trans (.moved _ m₃ m₃.eip _)) (by decide) _ _ _ _
    offset).mono (fun _ m' h => ?_) fun _ _ h => h
  exact ⟨place, stack, hplace, hat, h⟩

end Exec

/-! ## Far instructions -/

/-- The stores of a far instruction are permitted. -/
structure PermitsFar (permits : H → Dword → List Byte → Prop) (m : Machine H)
    (far : FarInstruction) : Prop where
  segments : CoversSegments permits m
  marks : ∀ {selector}, far.Marks m.farView selector → CoversMark permits m.toProcessor selector
  stack : ∀ {cache}, far.EntersStack m.farView cache → CoversCache permits m.toProcessor cache

/-- The segment registers after a return to a level: the data segments of more privileged levels
are cleared. -/
def Segments.afterReturnTo (s : Segments) (level : Byte) : Segments :=
  { s with
    es := s.es.afterReturnTo level
    fs := s.fs.afterReturnTo level
    gs := s.gs.afterReturnTo level
    ds := s.ds.afterReturnTo level }

/-- What a completed far instruction in protected mode has checked and loaded. -/
inductive CompletesFar (permits : H → Dword → List Byte → Prop) (m : Machine H) :
    FarInstruction → Machine H → Prop where
  | direct {transfer : Transfer} {w : Width} {dest : FarTarget} {target : Descriptor} {m' : Machine H} :
    DirectEntry m.farView dest.selector target →
    Loads permits m m'
      (m.segs.set .cs (.ofDescriptor (withLevel dest.selector m.cpl) target)) dest.offset →
    CompletesFar permits m (.transfer transfer w dest) m'
  | gate {transfer : Transfer} {w : Width} {dest : FarTarget} {gate target : Descriptor}
    {m' : Machine H} :
    LevelGate m.farView dest.selector gate target →
    Loads permits m m'
      (m.segs.set .cs (.ofDescriptor (withLevel gate.gateSelector m.cpl) target)) gate.callTarget →
    CompletesFar permits m (.transfer transfer w dest) m'
  | inner {w : Width} {dest : FarTarget} {gate target stack : Descriptor} {place : StackPointer}
    {m' : Machine H} :
    InnerCall m.farView dest.selector gate target place stack →
    Loads permits m m'
      ((m.segs.set .ss (.ofDescriptor place.selector stack)).set .cs
        (.ofDescriptor (withLevel gate.gateSelector target.dpl) target)) gate.callTarget →
    CompletesFar permits m (.transfer .call w dest) m'
  | same {w : Width} {released selector : Word} {target : Descriptor} {offset : Dword}
    {m' : Machine H} :
    ReturnTarget m.farView w selector target →
    requestedLevel selector = m.cpl →
    Loads permits m m' (m.segs.set .cs (.ofDescriptor selector target)) offset →
    CompletesFar permits m (.ret w released) m'
  | outer {w : Width} {released selector place : Word} {target stack : Descriptor} {offset : Dword}
    {m' : Machine H} :
    OuterReturn m.farView w released selector target place stack →
    Loads permits m m'
      (((m.segs.set .cs (.ofDescriptor selector target)).set .ss
        (.ofDescriptor place stack)).afterReturnTo (requestedLevel selector)) offset →
    CompletesFar permits m (.ret w released) m'

namespace Exec

/-! ## Transfers -/

theorem enterDirect_ends {transfer : Transfer} {w : Width} {dest : FarTarget} {d : Descriptor}
    (hp : PermitsFar permits m (.transfer transfer w dest))
    (hd : m.farView.descriptor? dest.selector = some d) (hcode : d.isCode = true) :
    Ends (enterDirect transfer w dest.selector d dest.offset) m
      (fun _ m' => CompletesFar permits m (.transfer transfer w dest) m')
      (fun f m' => Effect.transfers.Faults permits m f m') := by
  have he := transfers_allowsFaults permits m
  unfold enterDirect
  refine ((Observes.view _).finds m).bind he fun cpl hv => ?_
  cases hv
  refine ends_guard he rfl fun hadmits => ends_guard he rfl fun hpresent => ?_
  have hentry : DirectEntry m.farView dest.selector d :=
    ⟨hd, hcode, by simpa using hadmits, by simpa using hpresent⟩
  exact (enterCode_ends hp.segments (hp.marks (.direct hentry)) d m.cpl dest.offset _).mono
    (fun _ _ h => .direct hentry h) fun _ _ h => h

/-- A call through a gate goes to code of the same level or of an inner one, where it changes
the stack. -/
theorem callGate_ends {w : Width} {dest : FarTarget} {gate : Descriptor}
    (hp : PermitsFar permits m (.transfer .call w dest))
    (hd : m.farView.descriptor? dest.selector = some gate) (hgate : gate.isCallGate = true) :
    Ends (callGate dest.selector gate) m
      (fun _ m' => CompletesFar permits m (.transfer .call w dest) m')
      (fun f m' => Effect.transfers.Faults permits m f m') := by
  have he := transfers_allowsFaults permits m
  unfold callGate
  refine (gateTarget_finds dest.selector gate m).bind he fun target ht => ?_
  obtain ⟨hlevel, hrequested, hpresent, hselector, htarget, hcode, houter⟩ := ht
  obtain ⟨targetSelector, d⟩ := target
  simp only at hselector htarget hcode houter
  subst hselector
  refine ends_guard he rfl fun htpresent => ?_
  have hpassage : GatePassage m.farView dest.selector gate d :=
    ⟨hd, hgate, hlevel, hrequested, hpresent, htarget, hcode, houter, by simpa using htpresent⟩
  refine ((Observes.view _).finds m).bind he fun cpl hv => ?_
  cases hv
  rw [ends_ite]
  constructor
  · intro hinner
    simp only [Bool.and_eq_true, Bool.not_eq_true', decide_eq_true_eq] at hinner
    refine (callInner_ends ⟨gate.gateSelector, d⟩ (gateWidth gate) gate.callTarget
      gate.gateParameters fun place stack hplace hat => ?_).mono ?_ fun _ _ h => h
    · have hcall : InnerCall m.farView dest.selector gate d place stack :=
        ⟨hpassage, hinner.1, hinner.2, hplace, hat⟩
      exact ⟨hp.marks (.innerCode hcall), hp.marks (.innerStack hcall), hp.stack (.inner hcall)⟩
    · rintro _ m' ⟨place, stack, hplace, hat, hl⟩
      exact .inner ⟨hpassage, hinner.1, hinner.2, hplace, hat⟩ hl
  · intro hsame
    have hkeeps : d.isConforming = true ∨ d.dpl = m.cpl := by
      simp only [Bool.and_eq_true, Bool.not_eq_true', decide_eq_true_eq, not_and,
        BitVec.not_lt] at hsame
      cases hconf : d.isConforming with
      | true => exact .inl rfl
      | false => exact .inr (BitVec.le_antisymm houter (hsame hconf))
    exact (enterCode_ends hp.segments (hp.marks (.gate ⟨hpassage, hkeeps⟩)) d m.cpl
      gate.callTarget _).mono (fun _ _ h => .gate ⟨hpassage, hkeeps⟩ h) fun _ _ h => h

theorem jumpGate_ends {w : Width} {dest : FarTarget} {gate : Descriptor}
    (hp : PermitsFar permits m (.transfer .jump w dest))
    (hd : m.farView.descriptor? dest.selector = some gate) (hgate : gate.isCallGate = true) :
    Ends (jumpGate dest.selector gate) m
      (fun _ m' => CompletesFar permits m (.transfer .jump w dest) m')
      (fun f m' => Effect.transfers.Faults permits m f m') := by
  have he := transfers_allowsFaults permits m
  unfold jumpGate
  refine (gateTarget_finds dest.selector gate m).bind he fun target ht => ?_
  obtain ⟨hlevel, hrequested, hpresent, hselector, htarget, hcode, houter⟩ := ht
  obtain ⟨targetSelector, d⟩ := target
  simp only at hselector htarget hcode houter
  subst hselector
  refine ((Observes.view _).finds m).bind he fun cpl hv => ?_
  cases hv
  refine ends_guard he rfl fun hkeeps => ends_guard he rfl fun htpresent => ?_
  have hpassage : GatePassage m.farView dest.selector gate d :=
    ⟨hd, hgate, hlevel, hrequested, hpresent, htarget, hcode, houter, by simpa using htpresent⟩
  have hlevelGate : LevelGate m.farView dest.selector gate d :=
    ⟨hpassage, by simpa [Decidable.or_iff_not_imp_left] using hkeeps⟩
  exact (enterCode_ends hp.segments (hp.marks (.gate hlevelGate)) d m.cpl gate.callTarget
    none).mono (fun _ _ h => .gate hlevelGate h) fun _ _ h => h

theorem transferProtected_ends {transfer : Transfer} {w : Width} {dest : FarTarget}
    (hp : PermitsFar permits m (.transfer transfer w dest)) :
    Ends (transferProtected transfer w dest.selector dest.offset) m
      (fun _ m' => CompletesFar permits m (.transfer transfer w dest) m')
      (fun f m' => Effect.transfers.Faults permits m f m') := by
  have he := transfers_allowsFaults permits m
  unfold transferProtected
  refine ends_guard he rfl fun _ => ?_
  refine ((readDescriptor_observes dest.selector).finds m).bind he fun d hd => ?_
  simp only [ends_ite]
  refine ⟨fun hcode => enterDirect_ends hp hd hcode, fun _ => ⟨fun hgate => ?_, fun _ => ?_⟩⟩
  · cases transfer with
    | call => exact callGate_ends hp hd hgate
    | jump => exact jumpGate_ends hp hd hgate
  · exact ⟨fun _ => he _ m.log fun _ => rfl, fun _ => ⟨fun _ => he _ m.log fun _ => rfl, fun _ =>
      he _ m.log fun _ => rfl⟩⟩

/-! ## Returns -/

theorem returnSame_ends {w : Width} {released selector : Word} {d : Descriptor}
    (hp : PermitsFar permits m (.ret w released)) (ht : ReturnTarget m.farView w selector d)
    (hl : requestedLevel selector = m.cpl) :
    Ends (returnSame w selector d) m (fun _ m' => CompletesFar permits m (.ret w released) m')
      (fun f m' => Effect.transfers.Faults permits m f m') := by
  have he := transfers_allowsFaults permits m
  unfold returnSame
  refine ((frameValue_observes w 0).finds m).bind he fun offset _ => ?_
  refine ends_guard he rfl fun _ => ?_
  rw [ends_bind]
  refine (markAccessed_ends (hp.marks (.returnCode ht))).mono (fun _ m₁ h₁ => ?_) fun _ _ h =>
    h.weaken (by decide)
  rw [ends_bind, ends_update]
  have h₂ := h₁.append (setSp_agree m₁ (m₁.spPlus (BitVec.ofNat 32 (2 * w.bytes))))
  exact (enter_ends h₂ (by decide) _ offset).mono (fun _ _ h => .same ht hl h) fun _ _ h => h

/-- A return to an outer level restores the stack that the call has left. -/
theorem returnOuter_ends {w : Width} {released selector : Word} {d : Descriptor}
    (hp : PermitsFar permits m (.ret w released)) (ht : ReturnTarget m.farView w selector d)
    (hl : m.cpl < requestedLevel selector) :
    Ends (returnOuter w selector d released) m
      (fun _ m' => CompletesFar permits m (.ret w released) m')
      (fun f m' => Effect.transfers.Faults permits m f m') := by
  have he := transfers_allowsFaults permits m
  unfold returnOuter
  extract_lets level above
  refine ((Observes.view _).finds m).bind he fun fits _ => ends_guard he rfl fun _ => ?_
  refine ((frameValue_observes w 0).finds m).bind he fun offset _ => ?_
  refine ((Observes.view _).finds m).bind he fun espPlace _ => ?_
  refine ((load_observes w .ss espPlace).finds m).bind he fun esp _ => ?_
  refine ((Observes.view _).finds m).bind he fun ssPlace hplace => ?_
  cases hplace
  refine ((load_observes w .ss _).finds m).bind he fun value hvalue => ?_
  refine ends_guard he rfl fun _ => ?_
  refine ((readDescriptor_observes _).finds m).bind he fun stack hstack => ?_
  refine ends_guard he rfl fun hchecked => ends_guard he rfl fun hpresent => ends_guard he rfl fun _ => ?_
  have hframed : m.farView.outerStack? w released = some (value.setWidth 16) := by
    simp [Machine.farView, above, hvalue]
  have hreturn : OuterReturn m.farView w released selector d (value.setWidth 16) stack := by
    simp only [Bool.or_eq_true, bne_iff_ne, ne_eq, Bool.not_eq_true', not_or, Decidable.not_not,
      Bool.not_eq_false] at hchecked hpresent
    exact ⟨ht, hl, hframed, hstack, hchecked.1.1, hchecked.1.2, hchecked.2, hpresent⟩
  rw [ends_bind]
  refine (markAccessed_ends (hp.marks (.returnCode ht))).mono (fun _ m₁ h₁ => ?_) fun _ _ h =>
    h.weaken (by decide)
  rw [ends_bind]
  refine (markAccessed_ends ((hp.marks (.returnStack hreturn)).of_agree h₁)).mono
    (fun _ m₂ h₂ => ?_) fun _ _ h₂ => (h₂.after h₁).weaken (by decide)
  rw [ends_bind, enter, ends_update, ends_update]
  have h₁₂ := h₁.append h₂
  refine .outer hreturn (.of_agree h₁₂ (by decide) ?_)
  simp only [Processor.setSeg, Processor.setReg, h₁₂.segs]
  rfl

theorem returnProtected_ends {w : Width} {released : Word}
    (hp : PermitsFar permits m (.ret w released)) :
    Ends (returnProtected w released) m
      (fun _ m' => CompletesFar permits m (.ret w released) m')
      (fun f m' => Effect.transfers.Faults permits m f m') := by
  have he := transfers_allowsFaults permits m
  unfold returnProtected
  refine ((Observes.view _).finds m).bind he fun fits _ => ends_guard he rfl fun _ => ?_
  refine ((frameValue_observes w 1).finds m).bind he fun value hvalue => ?_
  refine ends_guard he rfl fun _ => ?_
  refine ((readDescriptor_observes _).finds m).bind he fun d hd => ?_
  refine ((Observes.view _).finds m).bind he fun cpl hv => ?_
  cases hv
  refine ends_guard he rfl fun hadmits => ends_guard he rfl fun hpresent => ?_
  have ht : ReturnTarget m.farView w (value.setWidth 16) d := by
    simp only [Bool.or_eq_true, Bool.not_eq_true', not_or, Bool.not_eq_false] at hadmits hpresent
    exact ⟨by simp [Machine.farView, hvalue], hd, hadmits.1, hadmits.2, hpresent⟩
  rw [ends_ite]
  refine ⟨fun hl => returnOuter_ends hp ht hl, fun hl => returnSame_ends hp ht ?_⟩
  have hle : m.cpl ≤ requestedLevel (value.setWidth 16) := by
    have := ht.admitted
    simp only [admitsReturn, Bool.and_eq_true, decide_eq_true_eq] at this
    exact this.1
  exact BitVec.le_antisymm (BitVec.not_lt.mp hl) hle

/-! ## Real mode -/

/-- Without descriptors nothing is checked but the offset. -/
theorem transferReal_ends (hc : CoversSegments permits m) (transfer : Transfer) (w : Width)
    (selector : Word) (offset : Dword) :
    Ends (transferReal transfer w selector offset) m (fun _ _ => True)
      (fun f m' => Effect.transfers.Faults permits m f m') := by
  have he := transfers_allowsFaults permits m
  have hcheck : Observes (checkRealOffset offset : Exec H Unit) := .ite (.throw rfl) (.pure _)
  cases transfer with
  | jump => exact (hcheck.finds m).bind he fun _ _ => trivial
  | call =>
    refine ((reserve_observes (2 * w.bytes)).finds m).bind he fun top _ => ?_
    refine (hcheck.finds m).bind he fun _ _ => ?_
    rw [ends_bind]
    exact (storeReturn_hasEffect w top hc).mono (fun _ _ _ => trivial) fun _ _ h => h

theorem returnReal_ends (w : Width) (m : Machine H) :
    Ends (returnReal w) m (fun _ _ => True)
      (fun f m' => Effect.transfers.Faults permits m f m') := by
  have he := transfers_allowsFaults permits m
  refine ((frameValue_observes w 0).finds m).bind he fun offset _ => ?_
  exact ((frameValue_observes w 1).finds m).bind he fun selector _ => trivial

/-! ## Both modes -/

/-- A transfer in protected mode has checked what it loads. -/
theorem transferFar_ends {transfer : Transfer} {w : Width} {dest : FarTarget}
    (hp : PermitsFar permits m (.transfer transfer w dest)) :
    Ends (transferFar transfer w dest.selector dest.offset) m
      (fun _ m' => m.usesDescriptors = true → CompletesFar permits m (.transfer transfer w dest) m')
      (fun f m' => Effect.transfers.Faults permits m f m') := by
  rw [transferFar, ends_bind, ends_view, ends_ite]
  constructor
  · intro _
    exact (transferProtected_ends hp).mono (fun _ _ h _ => h) fun _ _ h => h
  · intro hu
    exact (transferReal_ends hp.segments transfer w dest.selector dest.offset).mono
      (fun _ _ _ hu' => absurd hu' hu) fun _ _ h => h

/-- A return in protected mode has checked what it loads. -/
theorem returnFar_ends {w : Width} {released : Word}
    (hp : PermitsFar permits m (.ret w released)) :
    Ends (returnFar w released) m
      (fun _ m' => m.usesDescriptors = true → CompletesFar permits m (.ret w released) m')
      (fun f m' => Effect.transfers.Faults permits m f m') := by
  rw [returnFar, ends_bind, ends_view, ends_ite]
  constructor
  · intro _
    exact (returnProtected_ends hp).mono (fun _ _ h _ => h) fun _ _ h => h
  · intro hu
    exact (returnReal_ends w m).mono (fun _ _ _ hu' => absurd hu' hu) fun _ _ h => h

end Exec

/-! ## Far instructions after a fetch -/

theorem CompletesFar.of_moved {far : FarInstruction} {eip : Dword} {log : Log}
    (h : CompletesFar permits { m with eip := eip, log := log } far m') :
    CompletesFar permits m far m' := by
  cases h with
  | direct he hl => exact .direct (m.farView_moved eip log ▸ he) hl.of_moved
  | gate hg hl => exact .gate (m.farView_moved eip log ▸ hg) hl.of_moved
  | inner hi hl => exact .inner (m.farView_moved eip log ▸ hi) hl.of_moved
  | same ht hs hl => exact .same (m.farView_moved eip log ▸ ht) hs hl.of_moved
  | outer ho hl => exact .outer (m.farView_moved eip log ▸ ho) hl.of_moved

theorem CompletesFar.setRegs {far : FarInstruction} (h : CompletesFar permits m far m')
    (regs : Vector Dword 8) : CompletesFar permits m far { m' with regs := regs } := by
  cases h with
  | direct he hl => exact .direct he (hl.setRegs regs)
  | gate hg hl => exact .gate hg (hl.setRegs regs)
  | inner hi hl => exact .inner hi (hl.setRegs regs)
  | same ht hs hl => exact .same ht hs (hl.setRegs regs)
  | outer ho hl => exact .outer ho (hl.setRegs regs)

theorem PermitsFar.moved {far : FarInstruction} (h : PermitsFar permits m far) (eip : Dword)
    (log : Log) : PermitsFar permits { m with eip := eip, log := log } far where
  segments := h.segments.of_agree (.moved [] m eip log)
  marks hs := (h.marks (m.farView_moved eip log ▸ hs)).of_agree (.moved [] m eip log)
  stack hs := (h.stack (m.farView_moved eip log ▸ hs)).of_agree (.moved [] m eip log)

end Ia32
