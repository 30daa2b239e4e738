import Ia32.Proofs.FarRuns
import Ia32.Proofs.GateCalls
import Ia32.Proofs.Rings

/-!
# Returns from calls through a gate

A return to a less privileged level pops what a call through a 32-bit gate has
pushed.  When the return releases as many bytes as the call has copied
parameters, it puts the segments and the registers back, and the stack of the
caller is without the parameters.
-/

namespace Ia32

open Host Exec

variable {H : Type} [Host H] {m m₁ m₂ : Machine H} {A : Dword → Prop}

/-! ## Segments -/

/-- A stack is no code segment. -/
theorem Descriptor.ne_of_isCode {d d' : Descriptor} (h : d.isCode = true)
    (h' : d'.isWritableData = true) : d ≠ d' := by
  have hall : ∀ kind : BitVec 5, (kind &&& 0x18 == 0x18) = true →
      (kind &&& 0x1A == 0x12) = false := by decide
  have hd : d.isWritableData = false := hall d.kind h
  rintro rfl
  simp [hd] at h'

theorem Descriptor.gateParameters_lt (d : Descriptor) : d.gateParameters < 32 := by
  rw [gateParameters, BitVec.toNat_and]
  exact Nat.and_lt_two_pow (n := 5) _ (by decide)

/-- Fewer bytes lie inside a segment when more of them do. -/
theorem SegmentCache.contains_mono {cache : SegmentCache} {offset : Dword} {len len' : Nat}
    (h : cache.contains offset len' = true) (hl : len ≤ len') : cache.contains offset len = true := by
  simp only [contains, Bool.and_eq_true, decide_eq_true_eq] at h ⊢
  omega

/-- A null selector has nothing but a level. -/
theorem and_three_of_isNullSelector {selector : Word} (h : isNullSelector selector = true) :
    selector &&& 3 = selector := by
  have hhigh : selector &&& 0xFFFC = 0 := by simpa [isNullSelector] using h
  have hmask : (0xFFFC : Word) ||| 3 = BitVec.allOnes 16 := by decide
  calc selector &&& 3
    _ = (selector &&& 0xFFFC) ||| (selector &&& 3) := by rw [hhigh]; exact BitVec.zero_or.symm
    _ = selector := by rw [← BitVec.and_or_distrib_left, hmask, BitVec.and_allOnes]

/-- A data segment is the one from before, but for the selector of one that was null already. -/
inductive SegmentCache.Restored (cache : SegmentCache) : SegmentCache → Prop where
  | same :
    cache.Restored cache
  | null :
    cache.isNull = true →
    isNullSelector cache.selector = false →
    cache.Restored { cache with selector := cache.selector &&& 3 }

/-- A data segment that fits a level comes back in a return to that level. -/
theorem SegmentCache.restored_afterReturnTo {cache : SegmentCache} {level : Byte}
    (hl : cache.FitsLevel level) : cache.Restored (cache.afterReturnTo level) := by
  unfold afterReturnTo
  split
  next hc =>
    simp only [Bool.and_eq_true, decide_eq_true_eq] at hc
    have hnull : cache.isNull = true := by
      rcases hl with h | h | h
      · exact h
      · simp [h] at hc
      · exact absurd hc.1 (BitVec.not_lt.2 h)
    have hkeeps : { cache with isNull := true, selector := cache.selector &&& 3 }
        = { cache with selector := cache.selector &&& 3 } := by rw [hnull]
    rw [hkeeps]
    cases hs : isNullSelector cache.selector with
    | true =>
      rw [and_three_of_isNullSelector hs]
      exact .same
    | false => exact .null hnull hs
  next => exact .same

theorem Segments.get_afterReturnTo (s : Segments) (level : Byte) {seg : Seg}
    (h : seg ∈ Seg.dataSegments) : (s.afterReturnTo level).get seg = (s.get seg).afterReturnTo level := by
  cases seg <;> first | rfl | exact absurd h (by decide)

/-! ## Returns to a less privileged level -/

namespace Exec

/-- An entry in memory can be marked after another one. -/
theorem markAgain {host : H} {selector : Word} {d : Descriptor} (hb : Backs A m.host)
    (hA : ∀ selector a, EntryByte m.toProcessor selector a → A a) (hs : StoredIn A m.host host)
    (hd : m.farView.descriptor? selector = some d) :
    ∃ host', (markAccessed selector).run { m with host := host }
      = .ok () { m with host := host' } := by
  obtain ⟨hentry, bytes, hbytes, -⟩ := descriptor?_eq_some_iff.1 hd
  have hin : Within A (entryAddress m.toProcessor selector) 8 := fun i hi =>
    hA selector _ ⟨hentry, i, hi, rfl⟩
  obtain ⟨bytes', hbytes'⟩ := exists_hostBytes_of_storedIn hb hs hin hbytes
  have hd' : { m with host := host }.farView.descriptor? selector = some (.ofBytes bytes') :=
    descriptor?_eq_some_iff.2 ⟨hentry, bytes', hbytes', rfl⟩
  have hb' : Backs A { m with host := host }.host := hb.of_storedIn hs
  obtain ⟨host', hrun, -⟩ := markAccessed_run hb' (hA selector) hd'
  exact ⟨host', hrun⟩

/-- The processor after a return to a less privileged level. -/
def leaveOuter (s : Processor) (w : Width) (cs ss : SegmentCache) (offset esp : Dword) : Processor :=
  { s.setReg w Reg.esp esp with
    segs := ((s.segs.set .cs cs).set .ss ss).afterReturnTo cs.pl
    eip := offset }

/-- The processor after the release of some bytes of the stack. -/
def releaseStack (bytes : Word) (s : Processor) : Processor :=
  s.setSp (s.spPlus (bytes.setWidth 32))

/-- A return to a less privileged level for which everything checked holds succeeds. -/
theorem returnOuter_run {w : Width} {released selector place : Word} {target stack : Descriptor}
    {offset esp : Dword} (hr : OuterReturn m.farView w released selector target place stack)
    (hplace : isNullSelector place = false)
    (hfits : m.segs.ss.contains m.sp (4 * w.bytes + released.toNat) = true)
    (hoffset : m.farView.frameValue? w 0 = some offset)
    (hesp : value? (load w .ss
      (m.wrapStack (m.sp + BitVec.ofNat 32 (2 * w.bytes + released.toNat)))) m = some esp)
    (htarget : (SegmentCache.ofDescriptor selector target).contains offset 1 = true)
    (hb : Backs A m.host) (hA : ∀ selector a, EntryByte m.toProcessor selector a → A a) :
    ∃ host, (returnOuter w selector target released).run m = .ok ()
      { m with
        toProcessor := leaveOuter m.toProcessor w (.ofDescriptor selector target)
          (.ofDescriptor place stack) offset esp
        host := host } := by
  obtain ⟨value, hvalue, rfl⟩ := Option.map_eq_some_iff.1 hr.framed
  obtain ⟨host₁, hcode, hs₁⟩ := markAccessed_run hb (hA selector) hr.descriptor
  obtain ⟨host₂, hstack⟩ := markAgain hb hA hs₁ hr.stackAt.descriptor
  unfold returnOuter
  extract_lets level above
  rw [run_view_bind, hfits, if_neg (by decide),
    run_bind_of_ok ((frameValue_observes w 0).run_of_value hoffset), run_view_bind,
    run_bind_of_ok ((load_observes w .ss _).run_of_value hesp), run_view_bind,
    run_bind_of_ok ((load_observes w .ss _).run_of_value hvalue)]
  dsimp only
  rw [hplace, if_neg (by decide),
    run_bind_of_ok ((readDescriptor_observes _).run_of_value hr.stackAt.descriptor),
    hr.stackAt.requested, hr.stackAt.level, hr.stackAt.writable, hr.stackAt.present]
  have hchecked : ¬(level != level || level != level || !true) = true := by simp [level]
  rw [if_neg hchecked, if_neg (by decide), htarget, if_neg (by decide), run_bind_of_ok hcode, run_bind_of_ok hstack]
  exact ⟨host₂, rfl⟩

/-- A return to a less privileged level succeeds, and then it releases some bytes of the stack. -/
theorem runFar_outer {w : Width} {released selector place : Word} {target stack : Descriptor}
    {offset esp : Dword} (hu : m.usesDescriptors = true)
    (hr : OuterReturn m.farView w released selector target place stack)
    (hselector : isNullSelector selector = false) (hplace : isNullSelector place = false)
    (hfits : m.segs.ss.contains m.sp (4 * w.bytes + released.toNat) = true)
    (hoffset : m.farView.frameValue? w 0 = some offset)
    (hesp : value? (load w .ss
      (m.wrapStack (m.sp + BitVec.ofNat 32 (2 * w.bytes + released.toNat)))) m = some esp)
    (htarget : (SegmentCache.ofDescriptor selector target).contains offset 1 = true)
    (hb : Backs A m.host) (hA : ∀ selector a, EntryByte m.toProcessor selector a → A a) :
    ∃ host, (runFar (.ret w released)).run m = .ok ()
      { m with
        toProcessor := releaseStack released (leaveOuter m.toProcessor w
          (.ofDescriptor selector target) (.ofDescriptor place stack) offset esp)
        host := host } := by
  obtain ⟨value, hvalue, rfl⟩ := Option.map_eq_some_iff.1 hr.popped
  obtain ⟨host, hrun⟩ := returnOuter_run hr hplace hfits hoffset hesp htarget hb hA
  have hshort : m.segs.ss.contains m.sp (2 * w.bytes) = true :=
    SegmentCache.contains_mono hfits (by omega)
  have hadmits : ¬(!target.isCode || !admitsReturn (value.setWidth 16) target m.cpl) = true := by
    simpa using ⟨hr.isCode, hr.admitted⟩
  have houter : m.cpl < requestedLevel (value.setWidth 16) := hr.outer
  have hprotected : (returnProtected w released).run m
      = (returnOuter w (value.setWidth 16) target released).run m := by
    rw [returnProtected, run_view_bind, hshort, if_neg (by decide),
      run_bind_of_ok ((frameValue_observes w 1).run_of_value hvalue)]
    dsimp only
    rw [hselector, if_neg (by decide),
      run_bind_of_ok ((readDescriptor_observes _).run_of_value hr.descriptor), run_view_bind,
      if_neg hadmits, hr.present, if_neg (by decide), if_pos houter]
  have hreturn : (returnFar w released).run m
      = (returnOuter w (value.setWidth 16) target released).run m := by
    rw [returnFar, run_view_bind, hu, if_pos rfl, hprotected]
  rw [runFar, run_bind_of_ok (hreturn.trans hrun)]
  exact ⟨host, rfl⟩

end Exec

/-! ## The frame of a call -/

/-- The code segment and the stack segment are what the descriptor tables hold for their
selectors. -/
structure Machine.TablesHold (m : Machine H) (code stack : Descriptor) : Prop where
  codeFound : m.farView.descriptor? m.segs.cs.selector = some code
  codeCached : m.segs.cs = .ofDescriptor m.segs.cs.selector code
  codePresent : code.isPresent = true
  isCode : code.isCode = true
  codeLevel : if code.isConforming then code.dpl ≤ m.segs.cs.pl else code.dpl = m.segs.cs.pl
  stackFound : m.farView.descriptor? m.segs.ss.selector = some stack
  stackCached : m.segs.ss = .ofDescriptor m.segs.ss.selector stack
  stackPresent : stack.isPresent = true

namespace Machine.TablesHold

variable {code stack : Descriptor}

theorem moved (h : m.TablesHold code stack) (eip : Dword) (log : Log) :
    { m with eip := eip, log := log }.TablesHold code stack :=
  have hview := m.farView_moved eip log
  { h with codeFound := hview ▸ h.codeFound, stackFound := hview ▸ h.stackFound }

theorem requestedLevel_eq (h : m.TablesHold code stack) :
    requestedLevel m.segs.cs.selector = m.segs.cs.pl := by
  rw [h.codeCached]
  rfl

theorem stackRequested (h : m.TablesHold code stack) (hs : m.segs.MatchLevel) :
    requestedLevel m.segs.ss.selector = m.segs.cs.pl := by
  rw [← hs.stackRequested, h.stackCached]
  rfl

theorem stackLevel (h : m.TablesHold code stack) (hs : m.segs.MatchLevel) :
    stack.dpl = m.segs.cs.pl := by
  rw [← hs.stackLevel, h.stackCached]
  rfl

theorem stackWritable (h : m.TablesHold code stack) (hs : m.segs.MatchLevel) :
    stack.isWritableData = true := by
  rw [← hs.stackWritable, h.stackCached]
  rfl

/-- The code segment admits a return from a more privileged level. -/
theorem admitsReturn (h : m.TablesHold code stack) {level : Byte} (hl : level < m.segs.cs.pl) :
    admitsReturn m.segs.cs.selector code level = true := by
  have hle : level ≤ m.segs.cs.pl := BitVec.le_of_lt hl
  have hcode := h.codeLevel
  rw [Exec.admitsReturn, h.requestedLevel_eq]
  cases hc : code.isConforming <;> simp_all

/-- The code segment is none that is more privileged and not conforming. -/
theorem code_ne (h : m.TablesHold code stack) {target : Descriptor}
    (hconf : target.isConforming = false) (hl : target.dpl < m.segs.cs.pl) : code ≠ target := by
  rintro rfl
  have hcode := h.codeLevel
  rw [hconf] at hcode
  rw [← hcode] at hl
  exact BitVec.lt_irrefl _ hl

/-- The stack is none of a more privileged level. -/
theorem stack_ne (h : m.TablesHold code stack) (hs : m.segs.MatchLevel) {other : Descriptor}
    (hl : other.dpl < m.segs.cs.pl) : stack ≠ other := by
  rintro rfl
  rw [h.stackLevel hs] at hl
  exact BitVec.lt_irrefl _ hl

end Machine.TablesHold

namespace BuildsFrame

variable {m' : Machine H} {target : GateTarget} {frame : InnerFrame}

theorem cpl_eq (h : BuildsFrame m target frame m') (hu : m.usesDescriptors = true) :
    m'.cpl = target.descriptor.dpl := by
  rw [Processor.cpl_of_usesDescriptors (h.usesDescriptors_eq.trans hu), h.cs_eq]
  exact requestedLevel_withLevel target.descriptor.dpl_le _

/-- A value above the parameters is read back. -/
theorem load_above (h : BuildsFrame m target frame m') (hb : Backs A m.host)
    (ha : FrameApart A m m' frame.count) (hcount : frame.count ≤ 2 ^ 14) {released : Word}
    (hreleased : released.toNat = 4 * frame.parameters.length) {value : Dword} {k : Nat}
    (hv : (value, frame.parameters.length + k) ∈ frameValues m.toProcessor frame.parameters) :
    value? (load .dword .ss
      (m'.wrapStack (m'.sp + BitVec.ofNat 32 (k * Width.dword.bytes + released.toNat)))) m'
        = some value := by
  have hslot : m'.wrapStack (m'.sp + BitVec.ofNat 32 (k * Width.dword.bytes + released.toNat))
      = slot m'.toProcessor .dword m'.sp (frame.parameters.length + k) := by
    rw [slot, hreleased, Nat.add_mul, Nat.add_comm (k * _), Nat.mul_comm 4]
    rfl
  rw [hslot]
  exact h.load_slot hb ha hcount hv

end BuildsFrame

/-! ## The processor after a return -/

theorem regs_releaseStack {s s' : Processor} (hregs : s.regs = s'.regs)
    (hss : s.segs.ss = s'.segs.ss) (bytes : Word) :
    (releaseStack bytes s).regs = (s'.setSp (s'.spPlus (bytes.setWidth 32))).regs := by
  simp only [releaseStack, Processor.setSp, Processor.spPlus, Processor.sp, Processor.wrapStack,
    Processor.stack32, Processor.setReg, Processor.reg, hregs, hss]
  rfl

/-- A processor `s'` is where `s` was, at an offset, and some bytes are released from the stack. -/
structure Processor.Returned (s : Processor) (offset : Dword) (bytes : Nat) (s' : Processor) :
    Prop where
  cs : s'.segs.cs = s.segs.cs
  ss : s'.segs.ss = s.segs.ss
  cpl : s'.cpl = s.cpl
  eip : s'.eip = offset
  regs : s'.regs = (s.setSp (s.spPlus (BitVec.ofNat 32 bytes))).regs
  data : ∀ seg ∈ Seg.dataSegments, (s.segs.get seg).Restored (s'.segs.get seg)

namespace BuildsFrame

variable {m' : Machine H} {target : GateTarget} {frame : InnerFrame}

/-- The processor after the return. -/
theorem returned (h : BuildsFrame m target frame m') (hring : RingConsistent m.toProcessor)
    (offset : Dword) {released : Word} {bytes : Nat}
    (hreleased : released.setWidth 32 = BitVec.ofNat 32 bytes) :
    m.toProcessor.Returned offset bytes (releaseStack released
      (leaveOuter m'.toProcessor .dword m.segs.cs m.segs.ss offset (m.reg .dword Reg.esp))) where
  cs := rfl
  ss := rfl
  cpl := by
    have hu : (releaseStack released (leaveOuter m'.toProcessor .dword m.segs.cs m.segs.ss offset
        (m.reg .dword Reg.esp))).usesDescriptors = true := h.usesDescriptors_eq.trans hring.mode
    rw [Processor.cpl_of_usesDescriptors hu, Processor.cpl_of_usesDescriptors hring.mode]
    rfl
  eip := rfl
  regs := by
    have hregs : (leaveOuter m'.toProcessor .dword m.segs.cs m.segs.ss offset
        (m.reg .dword Reg.esp)).regs = m.regs := h.regs_eq
    rw [← hreleased]
    exact regs_releaseStack hregs rfl released
  data seg hseg := by
    obtain ⟨hcs, hss⟩ := Seg.ne_of_mem_dataSegments hseg
    have hget :=
      calc Segments.get (((m'.segs.set .cs m.segs.cs).set .ss m.segs.ss).afterReturnTo m.segs.cs.pl) seg
        _ = (m'.segs.get seg).afterReturnTo m.segs.cs.pl := by
          rw [Segments.get_afterReturnTo _ _ hseg, Segments.get_set_of_ne _ _ hss,
            Segments.get_set_of_ne _ _ hcs]
        _ = (m.segs.get seg).afterReturnTo m.segs.cs.pl := by rw [h.data_eq hcs hss]
    exact hget ▸ SegmentCache.restored_afterReturnTo (hring.segments.data seg hseg)

end BuildsFrame

/-! ## The return from a call -/

section CallHolds

variable {m' : Machine H} {target : GateTarget} {frame : InnerFrame} {code stack : Descriptor}
  (h : BuildsFrame m target frame m') (hb : Backs A m.host) (ha : FrameApart A m m' frame.count)
  (hring : RingConsistent m.toProcessor) (htables : m.TablesHold code stack)
  (htarget : m.farView.descriptor? target.selector = some target.descriptor)
  (hconf : target.descriptor.isConforming = false)
  (hinner : target.descriptor.dpl < m.segs.cs.pl) (hcount : frame.count ≤ 2 ^ 14)
  {released : Word} (hreleased : released.toNat = 4 * frame.parameters.length)

include h hb ha hring htables htarget hconf hinner

/-- After a call the tables still hold the descriptors of the old code and of the old stack. -/
theorem BuildsFrame.tables_eq : m'.farView.descriptor? m.segs.cs.selector = some code ∧
    m'.farView.descriptor? m.segs.ss.selector = some stack :=
  ⟨h.descriptor?_eq hb ha htarget htables.codeFound (htables.code_ne hconf hinner)
      (Descriptor.ne_of_isCode htables.isCode h.stackAt.writable),
    h.descriptor?_eq hb ha htarget htables.stackFound (htables.stack_ne hring.segments hinner)
      (htables.stack_ne hring.segments (h.stackAt.level ▸ hinner))⟩

include hcount hreleased

/-- The frame of a call is a frame for a return to the old code and the old stack. -/
theorem BuildsFrame.outerReturn :
    OuterReturn m'.farView .dword released m.segs.cs.selector code m.segs.ss.selector stack := by
  have hcs : (m.segs.cs.selector.setWidth 32, 1) ∈ frameValues m.toProcessor frame.parameters := by
    simp [frameValues]
  have hss : (m.segs.ss.selector.setWidth 32, frame.parameters.length + 3) ∈
      frameValues m.toProcessor frame.parameters := by simp [frameValues]
  have hlevel := htables.requestedLevel_eq
  have hcpl : m'.farView.level = target.descriptor.dpl := h.cpl_eq hring.mode
  obtain ⟨hcode, hstack⟩ := h.tables_eq hb ha hring htables htarget hconf hinner
  exact
    { popped := by
        change (value? (load .dword .ss (slot m'.toProcessor .dword m'.sp 1)) m').map _ = _
        rw [h.load_slot hb ha hcount hcs]
        exact congrArg some (Word.setWidth_dword _)
      descriptor := hcode
      isCode := htables.isCode
      admitted := hcpl ▸ htables.admitsReturn hinner
      present := htables.codePresent
      outer := by rwa [hcpl, hlevel]
      framed := by
        change (value? (load .dword .ss (m'.wrapStack _)) m').map _ = _
        rw [h.load_above hb ha hcount hreleased hss]
        exact congrArg some (Word.setWidth_dword _)
      stackAt :=
        { descriptor := hstack
          requested := by rw [hlevel, htables.stackRequested hring.segments]
          level := by rw [hlevel, htables.stackLevel hring.segments]
          writable := htables.stackWritable hring.segments
          present := htables.stackPresent } }

/-- A return that finds the frame of a call succeeds and undoes the call. -/
theorem BuildsFrame.return_run (hcs : isNullSelector m.segs.cs.selector = false)
    (hss : isNullSelector m.segs.ss.selector = false) (hinside : m.segs.cs.contains m.eip 1 = true) :
    ∃ m'', (runFar (.ret .dword released)).run m' = .ok () m'' ∧
      m.toProcessor.Returned m.eip (4 * frame.parameters.length) m''.toProcessor := by
  have hreturn := h.outerReturn hb ha hring htables htarget hconf hinner hcount hreleased
  have hfits : m'.segs.ss.contains m'.sp (4 * Width.dword.bytes + released.toNat) = true := by
    have hlen : 4 * Width.dword.bytes + released.toNat = 4 * frame.count := by
      rw [hreleased, InnerFrame.count, Nat.mul_add]
      rfl
    rw [h.ss_eq, h.sp_eq, hlen]
    exact h.fits
  have heip : (m.eip, 0) ∈ frameValues m.toProcessor frame.parameters := by simp [frameValues]
  have hesp : (m.reg .dword Reg.esp, frame.parameters.length + 2) ∈
      frameValues m.toProcessor frame.parameters := by simp [frameValues]
  have hoffset : m'.farView.frameValue? .dword 0 = some m.eip := by
    change value? (load .dword .ss (slot m'.toProcessor .dword m'.sp 0)) m' = _
    exact h.load_slot hb ha hcount heip
  have hentries : ∀ selector a, EntryByte m'.toProcessor selector a → A a := by
    rw [h.entryByte_eq]
    exact ha.entries
  have htarget' : (SegmentCache.ofDescriptor m.segs.cs.selector code).contains m.eip 1 = true :=
    htables.codeCached ▸ hinside
  obtain ⟨host, hrun⟩ := runFar_outer (h.usesDescriptors_eq.trans hring.mode) hreturn hcs hss hfits
    hoffset (h.load_above hb ha hcount hreleased hesp) htarget' (hb.of_storedIn (h.storedIn_apart ha))
    hentries
  rw [← htables.codeCached, ← htables.stackCached] at hrun
  refine ⟨_, hrun, h.returned hring m.eip ?_⟩
  rw [← hreleased]
  exact BitVec.eq_of_toNat_eq (by simp)

end CallHolds

/-! ## Calls that return -/

/-- A call through a 32-bit gate to code that is more privileged and not conforming succeeds, and
finds a return that releases its parameters.  The frame and the descriptor tables are in a region of
memory that remembers, and do not overlap.  The return address is inside the old code segment. -/
structure Machine.CallsInward (m : Machine H) (A : Dword → Prop) (gate : Descriptor)
    (offset : Dword) : Prop where
  ring : RingConsistent m.toProcessor
  tables : ∃ code stack, m.TablesHold code stack
  call : ∃ w dest, m.farInstruction? = some (.transfer .call w dest) ∧
    m.farView.descriptor? dest.selector = some gate
  gate32 : gate.isCallGate32 = true
  target : ∃ target, m.farView.descriptor? gate.gateSelector = some target ∧
    target.isConforming = false ∧ target.dpl < m.segs.cs.pl
  completed : m.step.1 = .completed
  returns : m.step.2.farInstruction?
    = some (.ret .dword (BitVec.ofNat 16 (4 * gate.gateParameters)))
  backs : Backs A m.host
  apart : FrameApart A m m.step.2 (4 + gate.gateParameters)
  behind : m.offsetBehind? = some offset
  inside : m.segs.cs.contains offset 1 = true

/-- The return from a call through a gate succeeds and puts everything back but the parameters, when
the selectors of the old code and of the old stack are not null. -/
theorem Machine.return_call {gate : Descriptor} {offset : Dword} (m : Machine H)
    (h : m.CallsInward A gate offset) (hcs : isNullSelector m.segs.cs.selector = false)
    (hss : isNullSelector m.segs.ss.selector = false) :
    m.step.2.step.1 = .completed ∧
      m.toProcessor.Returned offset (4 * gate.gateParameters) m.step.2.step.2.toProcessor := by
  obtain ⟨code, stack, htables⟩ := h.tables
  obtain ⟨w, dest, hcall, hgate⟩ := h.call
  obtain ⟨target, htarget, hconf, hinner⟩ := h.target
  have hcpl : m.cpl = m.segs.cs.pl := Processor.cpl_of_usesDescriptors h.ring.mode
  have hfew := gate.gateParameters_lt
  obtain ⟨m₀, hfetch⟩ := Machine.exists_fetchesFar hcall
  obtain ⟨eip, log, hm₀⟩ := hfetch.moved
  have hview : m₀.farView = m.farView := hm₀ ▸ m.farView_moved eip log
  have hbehind : m₀.eip = offset := Option.some.inj (hfetch.offsetBehind.symm.trans h.behind)
  have hring₀ : RingConsistent m₀.toProcessor := hm₀ ▸ ⟨h.ring.mode, h.ring.segments⟩
  have htables₀ : m₀.TablesHold code stack := hm₀ ▸ htables.moved eip log
  -- The call has built a frame.
  obtain ⟨m₁, hrun, hstep⟩ := hfetch.run_of_completed h.completed
  obtain ⟨frame, hparameters, hbuilt⟩ := (transferFar_builds hring₀.mode (hview ▸ hgate) h.gate32
    (hview ▸ htarget) hconf (by rw [hm₀]; exact hcpl ▸ hinner)).of_ok hrun
  -- The return is taken from the code.
  obtain ⟨m₂, hfetch'⟩ := Machine.exists_fetchesFar h.returns
  obtain ⟨eip', log', hm₂⟩ := hfetch'.moved
  have hbuilt' : BuildsFrame m₀ ⟨gate.gateSelector, target⟩ frame m₂ := by
    rw [hm₂, hstep]
    exact hbuilt.moved eip' log' _
  have hapart : FrameApart A m₀ m₂ frame.count := by
    rw [InnerFrame.count, hparameters, hm₂, hm₀]
    exact ⟨h.apart.frame, h.apart.entries, h.apart.apart, h.apart.tables⟩
  have hreleased : (BitVec.ofNat 16 (4 * gate.gateParameters)).toNat
      = 4 * frame.parameters.length := by
    rw [hparameters]
    exact Nat.mod_eq_of_lt (by omega)
  have hcount : frame.count ≤ 2 ^ 14 := by
    rw [InnerFrame.count, hparameters]
    omega
  obtain ⟨m₃, hreturn, hreturned⟩ := hbuilt'.return_run (hm₀ ▸ h.backs) hapart hring₀ htables₀
    (hview ▸ htarget) hconf (hm₀ ▸ hinner) hcount hreleased (hm₀ ▸ hcs) (hm₀ ▸ hss)
    (by rw [hbehind, hm₀]; exact h.inside)
  rw [hfetch'.step hreturn]
  rw [hbehind, hparameters] at hreturned
  subst hm₀
  exact ⟨rfl, hreturned.cs, hreturned.ss, hreturned.cpl, hreturned.eip, hreturned.regs, hreturned.data⟩

/-- A machine at level three before a call through a gate with one parameter, and a return at the
target of the gate.  Null selectors have a descriptor too, with a byte of rights that is given. -/
def Machine.callingInward (rights : UInt8) (cs ss : Word) : Machine Ram :=
  let bytes := #[
    -- the global table: code or data of level three, code and data of level zero, a gate to offset
    -- `48` of the code, and code and data of level three
    0xFF, 0xFF, 0x00, 0x00, 0x00, rights, 0xCF, 0x00,
    0xFF, 0xFF, 0x00, 0x00, 0x00, 0x9A, 0xCF, 0x00,
    0xFF, 0xFF, 0x00, 0x00, 0x00, 0x92, 0xCF, 0x00,
    0x48, 0x00, 0x08, 0x00, 0x01, 0xEC, 0x00, 0x00,
    0xFF, 0xFF, 0x00, 0x00, 0x00, 0xFA, 0xCF, 0x00,
    0xFF, 0xFF, 0x00, 0x00, 0x00, 0xF2, 0xCF, 0x00,
    -- the task state segment, with a stack of level zero that is empty at `80`
    0x00, 0x00, 0x00, 0x00, 0x80, 0x00, 0x00, 0x00,
    0x10, 0x00, 0x00, 0x00, 0x00, 0x00, 0x00, 0x00,
    -- the call, the return, and room for both stacks
    0x9A, 0x00, 0x00, 0x00, 0x00, 0x1B, 0x00, 0x00,
    0xCA, 0x04, 0x00, 0x00, 0x00, 0x00, 0x00, 0x00] ++ Array.replicate 0x30 0
  let m := Machine.initial ⟨⟨bytes⟩, none, 0, #[]⟩ {}
  { m with
    regs := (m.setReg .dword Reg.esp 0x58).regs
    eip := 0x40
    cr0 := Control.protection
    gdtr := ⟨0, 0x2F⟩
    tr := .ofDescriptor 0 ⟨0x0030000F, 0x00008900⟩
    segs := {
      cs := .ofDescriptor cs ⟨0x0000FFFF, 0x00CFFA00⟩
      ss := .ofDescriptor ss ⟨0x0000FFFF, 0x00CFF200⟩
      ds := .null 0x10
      es := .null 0
      fs := .null 0
      gs := .null 0 } }

/-- The old code, the old stack or neither has a null selector. -/
inductive Machine.InwardSelectors : UInt8 → Word → Word → Prop where
  | plain : InwardSelectors 0xFA 0x23 0x2B
  | nullCode : InwardSelectors 0xFA 0x03 0x2B
  | nullStack : InwardSelectors 0xF2 0x23 0x03

namespace Machine

variable {rights : UInt8} {cs ss : Word}

theorem matchLevel_callingInward (h : InwardSelectors rights cs ss) :
    (callingInward rights cs ss).segs.MatchLevel := by
  have hlevel : (callingInward rights cs ss).segs.cs.pl = 3 := by cases h <;> decide +kernel
  exact
    { bound := by rw [hlevel]; decide
      requested := by cases h <;> decide +kernel
      stackLoaded := rfl
      stackWritable := rfl
      stackRequested := by cases h <;> decide +kernel
      stackLevel := by rw [hlevel]; rfl
      data := fun seg hseg => .inl (by cases seg <;> first | rfl | exact absurd hseg (by decide)) }

theorem tablesHold_callingInward (h : InwardSelectors rights cs ss) :
    (callingInward rights cs ss).TablesHold ⟨0x0000FFFF, 0x00CFFA00⟩ ⟨0x0000FFFF, 0x00CFF200⟩ where
  codeFound := by cases h <;> decide +kernel
  codeCached := rfl
  codePresent := by decide
  isCode := by decide
  codeLevel := by cases h <;> decide +kernel
  stackFound := by cases h <;> decide +kernel
  stackCached := rfl
  stackPresent := by decide

/-- The frame of the call is five double words behind everything else. -/
theorem frameApart_callingInward (h : InwardSelectors rights cs ss) :
    FrameApart (fun a => a.toNat < (callingInward rights cs ss).host.bytes.size)
      (callingInward rights cs ss) (callingInward rights cs ss).step.2 5 := by
  have hsize : (callingInward rights cs ss).host.bytes.size = 0x80 := by cases h <;> decide +kernel
  have hstack : (callingInward rights cs ss).step.2.segs.ss.base = 0 ∧
      (callingInward rights cs ss).step.2.stack32 = true ∧
      (callingInward rights cs ss).step.2.sp = 0x6C := by cases h <;> decide +kernel
  obtain ⟨hbase, hwide, hsp⟩ := hstack
  have hframe {a : Dword} (ha : FrameByte (callingInward rights cs ss).step.2.toProcessor 5 a) :
      0x6C ≤ a.toNat ∧ a.toNat < 0x80 := by
    obtain ⟨k, hk, i, hi, rfl⟩ := ha
    rw [hbase, hsp, Exec.slot, Processor.wrapStack, hwide]
    have hall : ∀ k < 5, ∀ i < 4, 0x6C ≤ ((0 : Dword) + (0x6C + BitVec.ofNat 32 (k * 4))
        + BitVec.ofNat 32 i).toNat ∧ ((0 : Dword) + (0x6C + BitVec.ofNat 32 (k * 4))
        + BitVec.ofNat 32 i).toNat < 0x80 := by decide
    exact hall k hk i hi
  have hentry {selector : Word} {a : Dword}
      (ha : EntryByte (callingInward rights cs ss).toProcessor selector a) : a.toNat ≤ 0x2F :=
    entryByte_le rfl rfl ha
  rw [hsize]
  exact
    { frame := fun a ha => (hframe ha).2
      entries := fun _ a ha => Nat.lt_of_le_of_lt (hentry ha) (by decide)
      apart := fun _ a ha hb => absurd (hentry hb) (by have := (hframe ha).1; omega)
      tables := tablesApart_of_isNull rfl }

theorem callsInward_callingInward (h : InwardSelectors rights cs ss) :
    (callingInward rights cs ss).CallsInward
      (fun a => a.toNat < (callingInward rights cs ss).host.bytes.size)
      ⟨0x00080048, 0x0000EC01⟩ 0x47 where
  ring := ⟨by cases h <;> decide +kernel, matchLevel_callingInward h⟩
  tables := ⟨_, _, tablesHold_callingInward h⟩
  call := ⟨.dword, ⟨0x1B, 0⟩, by cases h <;> decide +kernel, by cases h <;> decide +kernel⟩
  gate32 := by decide
  target := ⟨⟨0x0000FFFF, 0x00CF9A00⟩, by cases h <;> decide +kernel, by decide,
    by cases h <;> decide +kernel⟩
  completed := by cases h <;> decide +kernel
  returns := by cases h <;> decide +kernel
  backs := Ram.backs rfl
  apart := frameApart_callingInward h
  behind := by cases h <;> decide +kernel
  inside := by cases h <;> decide +kernel

/-- The call goes to level zero, and the return comes back to level three. -/
theorem return_call_callingInward :
    (callingInward 0xFA 0x23 0x2B).step.2.cpl = 0 ∧
      (callingInward 0xFA 0x23 0x2B).step.2.step.1 = .completed ∧
      (callingInward 0xFA 0x23 0x2B).toProcessor.Returned 0x47 4
        (callingInward 0xFA 0x23 0x2B).step.2.step.2.toProcessor :=
  ⟨by decide +kernel,
    return_call _ (callsInward_callingInward .plain) (by decide +kernel) (by decide +kernel)⟩

/-- A null selector of the old code or of the old stack makes the return fail.  A data segment that
is null with a selector that is not loses it. -/
theorem not_return_call_null :
    ((callingInward 0xFA 0x03 0x2B).CallsInward
        (fun a => a.toNat < (callingInward 0xFA 0x03 0x2B).host.bytes.size)
        ⟨0x00080048, 0x0000EC01⟩ 0x47 ∧
      (callingInward 0xFA 0x03 0x2B).step.2.step.1 = .fault (.generalProtection 0)) ∧
    ((callingInward 0xF2 0x23 0x03).CallsInward
        (fun a => a.toNat < (callingInward 0xF2 0x23 0x03).host.bytes.size)
        ⟨0x00080048, 0x0000EC01⟩ 0x47 ∧
      (callingInward 0xF2 0x23 0x03).step.2.step.1 = .fault (.generalProtection 0)) ∧
    (callingInward 0xFA 0x23 0x2B).CallsInward
        (fun a => a.toNat < (callingInward 0xFA 0x23 0x2B).host.bytes.size)
        ⟨0x00080048, 0x0000EC01⟩ 0x47 ∧
      (callingInward 0xFA 0x23 0x2B).step.2.step.2.segs.ds ≠ (callingInward 0xFA 0x23 0x2B).segs.ds :=
  ⟨⟨callsInward_callingInward .nullCode, by decide +kernel⟩,
    ⟨callsInward_callingInward .nullStack, by decide +kernel⟩,
    callsInward_callingInward .plain, by decide +kernel⟩

end Machine

end Ia32
