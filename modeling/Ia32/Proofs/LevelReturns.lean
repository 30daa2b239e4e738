import Ia32.Proofs.LevelCalls

/-!
# Returns from calls that keep the privilege level

A return takes the frame of a call off the stack and goes on behind the call.  It
puts back the code segment: a far return in real mode forms it from the selector
in the frame, and one in protected mode loads it from the descriptor tables, where
the call may have marked it.  What the return releases besides is above the frame.
-/

namespace Ia32

open Host Exec

variable {H : Type} [Host H] {m m' : Machine H} {A : Dword → Prop} {w : Width}
  {values : List Dword} {cs : SegmentCache} {offset : Dword} {selector : Word}

/-! ## The machine after a return -/

/-- The machine after a return that has taken `n` values off the stack.  A far return in protected
mode may store in the descriptor tables. -/
def Machine.afterReturn (m : Machine H) (w : Width) (n : Nat) (cs : SegmentCache) (offset : Dword)
    (host : H) : Machine H :=
  { m with
    toProcessor := { (m.addSp (BitVec.ofNat 32 (n * w.bytes))).setSeg .cs cs with eip := offset }
    host := host }

/-- A machine `m'` is as `m`, but it is at an offset, and some bytes are taken off the stack.
Nothing is said of memory, the log and the number of instructions. -/
def Machine.Back (m : Machine H) (offset : Dword) (released : Word) (m' : Machine H) : Prop :=
  ∃ host log retired, m' = { m with
    toProcessor := { m.addSp (released.setWidth 32) with eip := offset }
    host := host
    log := log
    retired := retired }

namespace LeavesFrame

/-- The next instruction is taken from the code. -/
theorem moved (h : LeavesFrame A m w values cs m') (eip : Dword) (log : Log)
    (retired : Fin UInt64.size) :
    LeavesFrame A m w values cs { m' with eip := eip, log := log, retired := retired } where
  framed := ⟨h.framed.holds, fun k hk => ⟨(h.framed.granted k hk).rights, (h.framed.granted k hk).bounds⟩,
    h.framed.fits⟩
  after := by
    obtain ⟨host, _, _, _, hs, rfl⟩ := h.after
    exact ⟨host, eip, log, retired, hs, rfl⟩

theorem backs (h : LeavesFrame A m w values cs m') (hb : Backs A m.host) : Backs A m'.host := by
  obtain ⟨_, _, _, _, hs, rfl⟩ := h.after
  exact hb.of_storedIn hs

/-- A call does not load the tables. -/
theorem entryByte_eq (h : LeavesFrame A m w values cs m') :
    EntryByte m'.toProcessor = EntryByte m.toProcessor := by
  obtain ⟨_, _, _, _, -, rfl⟩ := h.after
  rfl

theorem usesDescriptors_eq (h : LeavesFrame A m w values cs m') :
    m'.usesDescriptors = m.usesDescriptors := by
  obtain ⟨_, _, _, _, -, rfl⟩ := h.after
  rfl

theorem ss_eq (h : LeavesFrame A m w values cs m') : m'.segs.ss = m.segs.ss := by
  obtain ⟨_, _, _, _, -, rfl⟩ := h.after
  rfl

theorem cs_eq (h : LeavesFrame A m w values cs m') : m'.segs.cs = cs := by
  obtain ⟨_, _, _, _, -, rfl⟩ := h.after
  rfl

theorem isVirtual8086_eq (h : LeavesFrame A m w values cs m') :
    m'.isVirtual8086 = m.isVirtual8086 := by
  obtain ⟨_, _, _, _, -, rfl⟩ := h.after
  rfl

/-- A return that takes the frame off and puts the code segment back, and then releases some bytes,
undoes the call. -/
theorem release_run (h : LeavesFrame A m w values cs m') (offset : Dword) (host : H)
    (released : Word) :
    ∃ m'', (release released).run (m'.afterReturn w values.length m.segs.cs offset host)
      = .ok () m'' ∧ m.Back offset released m'' := by
  obtain ⟨_, _, log, retired, -, rfl⟩ := h.after
  refine ⟨_, rfl, host, log, retired, ?_⟩
  have hback : (m.belowStack w values.length).addSp (BitVec.ofNat 32 (values.length * w.bytes))
      = m.toProcessor := m.addSp_belowStack
  have hsp : { ((m.belowStack w values.length).addSp
      (BitVec.ofNat 32 (values.length * w.bytes))).setSeg .cs m.segs.cs with eip := offset }
      = { m.toProcessor with eip := offset } := by
    rw [hback]
    rfl
  exact congrArg (fun s : Processor => ({ m with
    toProcessor := s.addSp (released.setWidth 32)
    host := host
    log := log
    retired := retired } : Machine H)) hsp

end LeavesFrame

/-! ## Runs of returns -/

/-- A value that fits a width is not cut. -/
theorem Width.truncate_of_lt (h : offset.toNat < 2 ^ w.bits) : w.truncate offset = offset := by
  apply BitVec.eq_of_toNat_eq
  rw [Width.toNat_truncate, Nat.mod_eq_of_lt h]

/-- A selector is read back from the frame of a far call. -/
theorem Width.setWidth_truncate_selector (hw : w ≠ .byte) (selector : Word) :
    (w.truncate (selector.setWidth 32)).setWidth 16 = selector := by
  have hlow : (selector.setWidth 32 : Dword).toNat < 2 ^ w.bits := by
    rw [BitVec.toNat_setWidth_of_le (by decide)]
    cases w with
    | byte => exact absurd rfl hw
    | word => exact selector.isLt
    | dword => exact selector.isLt.trans (by decide)
  rw [Width.truncate_of_lt hlow, Word.setWidth_dword]

namespace Exec

theorem frameValue_run {k : Nat} {value : Dword} (h : m.Framed w values)
    (hr : m.segs.ss.readable = true) (hv : values[k]? = some value) :
    (frameValue w k).run m = .ok (w.truncate value) m := by
  have hgranted := h.granted k (List.getElem?_eq_some_iff.1 hv).1
  have hread : m.segs.ss.Grants m.toProcessor .read (slot m.toProcessor w m.sp k) w.bytes :=
    ⟨fun hu => ⟨(hgranted.rights hu).1, hr⟩, hgranted.bounds⟩
  rw [frameValue, run_view_bind]
  exact (load_observes w .ss _).run_of_value ((h.holds.load_iff hv).2 ⟨hread, rfl⟩)

/-- A near return that finds a frame succeeds. -/
theorem returnNear_run (h : m.Framed w [offset]) (hr : m.segs.ss.readable = true)
    (hfits : w.truncate offset = offset) (hinside : m.segs.cs.contains offset 1 = true) :
    (returnNear w).run m = .ok () (m.afterReturn w 1 m.segs.cs offset m.host) := by
  have hload : (load w .ss m.sp).run m = .ok offset m := by
    have hvalue := frameValue_run (k := 0) h hr rfl
    rwa [frameValue, run_view_bind, m.slot_zero w, hfits] at hvalue
  have hcheck : (checkTarget offset).run m = .ok () m := by
    rw [checkTarget, run_view_bind, hinside, if_neg (by decide)]
    rfl
  rw [returnNear, run_view_bind, run_bind_of_ok hload, run_bind_of_ok hcheck, Machine.afterReturn,
    Nat.one_mul]
  rfl

/-- A far return in real mode that finds a frame succeeds. -/
theorem returnReal_run (hw : w ≠ .byte) (h : m.Framed w [offset, selector.setWidth 32])
    (hr : m.segs.ss.readable = true) (hfits : w.truncate offset = offset) :
    (returnReal w).run m
      = .ok () (m.afterReturn w 2 (.realMode selector m.isVirtual8086) offset m.host) := by
  rw [returnReal, run_bind_of_ok (frameValue_run (k := 0) h hr rfl),
    run_bind_of_ok (frameValue_run (k := 1) h hr rfl), Width.setWidth_truncate_selector hw, hfits]
  rfl

/-- A far return in protected mode that finds a frame and its code segment succeeds. -/
theorem returnProtected_run (hw : w ≠ .byte) {d : Descriptor}
    (h : m.Framed w [offset, selector.setWidth 32]) (hr : m.segs.ss.readable = true)
    (hfits : w.truncate offset = offset) (hnamed : isNullSelector selector = false)
    (hd : m.farView.descriptor? selector = some d) (hcode : d.isCode = true)
    (hpresent : d.isPresent = true) (hlevel : requestedLevel selector = m.cpl)
    (hdpl : if d.isConforming then d.dpl ≤ m.cpl else d.dpl = m.cpl)
    (hinside : (SegmentCache.ofDescriptor selector d).contains offset 1 = true)
    (hb : Backs A m.host) (hA : ∀ a, EntryByte m.toProcessor selector a → A a) (released : Word) :
    ∃ host, (returnProtected w released).run m
      = .ok () (m.afterReturn w 2 (.ofDescriptor selector d) offset host) := by
  obtain ⟨host, hmark, -⟩ := markAccessed_run hb hA hd
  have hadmits : ¬(!d.isCode || !admitsReturn selector d m.cpl) = true := by
    rw [hcode, admitsReturn, hlevel]
    cases hconf : d.isConforming <;> simp_all
  have hsame : ¬m.cpl < requestedLevel selector := hlevel ▸ BitVec.lt_irrefl _
  have hstack : m.segs.ss.contains m.sp (2 * w.bytes) = true := h.fits
  have hreturn : (returnSame w selector d).run m
      = .ok () (m.afterReturn w 2 (.ofDescriptor selector d) offset host) := by
    rw [returnSame, run_bind_of_ok (frameValue_run (k := 0) h hr rfl), hfits]
    dsimp only
    rw [hinside, if_neg (by decide), run_bind_of_ok hmark]
    rfl
  refine ⟨host, ?_⟩
  rw [returnProtected, run_view_bind, hstack, if_neg (by decide),
    run_bind_of_ok (frameValue_run (k := 1) h hr rfl)]
  dsimp only
  rw [Width.setWidth_truncate_selector hw, hnamed, if_neg (by decide),
    run_bind_of_ok ((readDescriptor_observes _).run_of_value hd), run_view_bind, if_neg hadmits,
    hpresent, if_neg (by decide), if_neg hsame]
  exact hreturn

end Exec

/-- The next instruction is taken from the code. -/
theorem LeavesReturn.moved (h : LeavesReturn A m w m') (eip : Dword) (log : Log)
    (retired : Fin UInt64.size) :
    LeavesReturn A m w { m' with eip := eip, log := log, retired := retired } where
  leaves := by
    obtain ⟨cs, hleaves, hpl⟩ := h.leaves
    exact ⟨cs, hleaves.moved eip log retired, hpl⟩
  kept selector d hd := by
    have hview : ({ m' with eip := eip, log := log, retired := retired } : Machine H).farView.descriptor?
        selector = m'.farView.descriptor? selector := Machine.descriptor?_congr rfl rfl rfl
    rw [Descriptor.KeptIn, hview]
    exact h.kept selector d hd

/-! ## Returns that undo calls -/

/-- The code segment is what the descriptor tables hold for its selector, and it fits the level. -/
structure Machine.CodeLoaded (m : Machine H) (code : Descriptor) : Prop where
  found : m.farView.descriptor? m.segs.cs.selector = some code
  cached : m.segs.cs = .ofDescriptor m.segs.cs.selector code
  present : code.isPresent = true
  level : if code.isConforming then code.dpl ≤ m.cpl else code.dpl = m.cpl

/-- What the return from a far call in protected mode needs of the descriptor tables. -/
structure Machine.TablesReturn (A : Dword → Prop) (m : Machine H) (w : Width) : Prop extends
    m.TablesClear A w where
  named : isNullSelector m.segs.cs.selector = false
  isCode : ∀ code, m.farView.descriptor? m.segs.cs.selector = some code → code.isCode = true

theorem Machine.TablesReturn.moved (h : m.TablesReturn A w) (eip : Dword) (log : Log) :
    { m with eip := eip, log := log }.TablesReturn A w :=
  have hview := m.farView_moved eip log
  { h with isCode := hview ▸ h.isCode }

namespace Machine.CodeLoaded

variable {code : Descriptor}

theorem moved (h : m.CodeLoaded code) (eip : Dword) (log : Log) :
    { m with eip := eip, log := log }.CodeLoaded code :=
  have hview := m.farView_moved eip log
  { h with found := hview ▸ h.found }

theorem requestedLevel_eq (h : m.CodeLoaded code) (hu : m.usesDescriptors = true) :
    requestedLevel m.segs.cs.selector = m.cpl := by
  rw [Processor.cpl_of_usesDescriptors hu, h.cached]
  rfl

theorem cpl_le (h : m.CodeLoaded code) (hu : m.usesDescriptors = true) : m.cpl ≤ 3 :=
  h.requestedLevel_eq hu ▸ requestedLevel_le _

end Machine.CodeLoaded

section Undoes

variable (hr : m.segs.ss.readable = true) (hfits : m.eip.toNat < 2 ^ w.bits)
  (hinside : m.segs.cs.contains m.eip 1 = true)

include hr hfits

theorem LeavesFrame.nearReturn_run (h : LeavesFrame A m w [m.eip] m.segs.cs m')
    (hinside : m.segs.cs.contains m.eip 1 = true) (released : Word) :
    ∃ m'', (runLinkage (.nearReturn w released)).run m' = .ok () m'' ∧
      m.Back m.eip released m'' := by
  have hcs : m'.segs.cs = m.segs.cs := h.cs_eq
  have hreturn := returnNear_run h.framed (h.ss_eq ▸ hr) (Width.truncate_of_lt hfits)
    (hcs.symm ▸ hinside)
  rw [hcs] at hreturn
  rw [runLinkage, run_bind_of_ok hreturn]
  exact h.release_run m.eip m'.host released

theorem LeavesFrame.realReturn_run (hw : w ≠ .byte) (h : LeavesFrame A m w m.returnAddress cs m')
    (hu : m.usesDescriptors = false)
    (hcs : m.segs.cs = .realMode m.segs.cs.selector m.isVirtual8086) (released : Word) :
    ∃ m'', (runLinkage (.far (.ret w released))).run m' = .ok () m'' ∧
      m.Back m.eip released m'' := by
  have hreturn := returnReal_run hw h.framed (h.ss_eq ▸ hr) (Width.truncate_of_lt hfits)
  rw [h.isVirtual8086_eq, ← hcs] at hreturn
  have hfar : (returnFar w released).run m' = (returnReal w).run m' := by
    rw [returnFar, run_view_bind, h.usesDescriptors_eq, hu, if_neg (by decide)]
  rw [runLinkage, runFar, run_bind_of_ok (hfar.trans hreturn)]
  exact h.release_run m.eip m'.host released

include hinside

theorem LeavesReturn.return_run (hw : w ≠ .byte) {code : Descriptor} (h : LeavesReturn A m w m')
    (hu : m.usesDescriptors = true) (hcode : m.CodeLoaded code) (ht : m.TablesReturn A w)
    (hb : Backs A m.host) (released : Word) :
    ∃ m'', (runLinkage (.far (.ret w released))).run m' = .ok () m'' ∧
      m.Back m.eip released m'' := by
  obtain ⟨cs, hleaves, hpl⟩ := h.leaves
  have hu' : m'.usesDescriptors = true := hleaves.usesDescriptors_eq.trans hu
  have hcpl : m'.cpl = m.cpl := by
    rw [Processor.cpl_of_usesDescriptors hu', hleaves.cs_eq, hpl]
  have hisCode : code.isCode = true := ht.isCode code hcode.found
  have hentries : ∀ a, EntryByte m'.toProcessor m.segs.cs.selector a → A a :=
    hleaves.entryByte_eq ▸ ht.entries m.segs.cs.selector
  -- The entry holds the old code segment, with or without the mark of the call.
  obtain ⟨d, hfound, hcached, hd, hpresent, hlevel⟩ : ∃ d : Descriptor,
      m'.farView.descriptor? m.segs.cs.selector = some d ∧
      .ofDescriptor m.segs.cs.selector d = m.segs.cs ∧ d.isCode = true ∧ d.isPresent = true ∧
      if d.isConforming then d.dpl ≤ m.cpl else d.dpl = m.cpl := by
    rcases h.kept _ _ hcode.found with hfound | hfound
    · exact ⟨code, hfound, hcode.cached.symm, hisCode, hcode.present, hcode.level⟩
    · refine ⟨code.accessed, hfound, ?_, code.isCode_accessed.trans hisCode,
        code.isPresent_accessed.trans hcode.present, ?_⟩
      · rw [code.ofDescriptor_accessed _ hisCode]
        exact hcode.cached.symm
      · rw [code.isConforming_accessed, code.dpl_accessed]
        exact hcode.level
  obtain ⟨host, hreturn⟩ := returnProtected_run hw hleaves.framed (hleaves.ss_eq ▸ hr)
    (Width.truncate_of_lt hfits) ht.named hfound hd hpresent
    ((hcode.requestedLevel_eq hu).trans hcpl.symm) (hcpl ▸ hlevel) (hcached ▸ hinside)
    (hleaves.backs hb) hentries released
  rw [hcached] at hreturn
  have hfar : (returnFar w released).run m' = (returnProtected w released).run m' := by
    rw [returnFar, run_view_bind, hu', if_pos rfl]
  rw [runLinkage, runFar, run_bind_of_ok (hfar.trans hreturn)]
  exact hleaves.release_run m.eip host released

end Undoes

/-! ## Calls and the steps after them -/

/-- The return that answers a call whose frame has a width. -/
def Linkage.answer (call : Linkage) (w : Width) (released : Word) : Linkage :=
  match call with
  | .far _ => .far (.ret w released)
  | _ => .nearReturn w released

/-- A call that keeps the privilege level, and the width of its frame.  The frame is in a region. -/
inductive Machine.LevelCall (A : Dword → Prop) (m : Machine H) : Linkage → Width → Prop where
  /-- A call inside the code segment. -/
  | near {w : Width} {target : Dword} :
    (∀ a, (m.belowStack w 1).StackByte w 1 a → A a) →
    m.LevelCall A (.nearCall w target) w
  /-- A far call in real or virtual-8086 mode, from code that is loaded as these modes do. -/
  | real {w : Width} {dest : FarTarget} :
    w ≠ .byte →
    (∀ a, (m.belowStack w 2).StackByte w 2 a → A a) →
    m.usesDescriptors = false →
    m.segs.cs = .realMode m.segs.cs.selector m.isVirtual8086 →
    m.LevelCall A (.far (.transfer .call w dest)) w
  /-- A far call in protected mode to a code segment. -/
  | direct {w : Width} {dest : FarTarget} {code target : Descriptor} :
    w ≠ .byte →
    (∀ a, (m.belowStack w 2).StackByte w 2 a → A a) →
    m.usesDescriptors = true →
    m.CodeLoaded code →
    m.farView.descriptor? dest.selector = some target →
    target.isCode = true →
    m.LevelCall A (.far (.transfer .call w dest)) w
  /-- A far call in protected mode through a gate to code of the same level.  The gate chooses the
  width of the frame. -/
  | gate {w : Width} {dest : FarTarget} {code gate target : Descriptor} :
    (∀ a, (m.belowStack (gateWidth gate) 2).StackByte (gateWidth gate) 2 a → A a) →
    m.usesDescriptors = true →
    m.CodeLoaded code →
    m.farView.descriptor? dest.selector = some gate →
    gate.isCallGate = true →
    m.farView.descriptor? gate.gateSelector = some target →
    (target.isConforming = true ∨ target.dpl = m.cpl) →
    m.LevelCall A (.far (.transfer .call w dest)) (gateWidth gate)

theorem Exec.gateWidth_ne (gate : Descriptor) : gateWidth gate ≠ .byte := by
  unfold gateWidth
  split <;> decide

/-- The return that answers a call succeeds and undoes it. -/
theorem Machine.LevelCall.return_run {call : Linkage} (h : m.LevelCall A call w)
    (hb : Backs A m.host) (hr : m.segs.ss.readable = true) (hfits : m.eip.toNat < 2 ^ w.bits)
    (hinside : m.segs.cs.contains m.eip 1 = true)
    (ht : m.usesDescriptors = true → (∃ far, call = .far far) → m.TablesReturn A w)
    (hrun : (runLinkage call).run m = .ok () m') (eip : Dword) (log : Log) (retired : Fin UInt64.size)
    (released : Word) :
    ∃ m'', (runLinkage (call.answer w released)).run
        { m' with eip := eip, log := log, retired := retired } = .ok () m'' ∧
      m.Back m.eip released m'' := by
  cases h with
  | near hA =>
    have hleaves := (callTo_leaves _ hb hA).of_ok hrun
    exact (hleaves.moved eip log retired).nearReturn_run hr hfits hinside released
  | real hw hA hu hcs =>
    rw [runLinkage, runFar, transferFar, run_view_bind, hu, if_neg (by decide)] at hrun
    have hleaves := (transferReal_leaves _ _ hb hA).of_ok hrun
    exact (hleaves.moved eip log retired).realReturn_run hr hfits hw hu hcs released
  | direct hw hA hu hcode hd htarget =>
    have hc := ht hu ⟨_, rfl⟩
    have hleaves := (transferFar_leaves_direct hu hd htarget hb hA hc.toTablesClear
      (hcode.cpl_le hu)).of_ok hrun
    exact (hleaves.moved eip log retired).return_run hr hfits hinside hw hu hcode hc hb released
  | gate hA hu hcode hd hgate htarget hsame =>
    have hc := ht hu ⟨_, rfl⟩
    have hleaves := (transferFar_leaves_gate hu hd hgate htarget hsame hb hA hc.toTablesClear
      (hcode.cpl_le hu)).of_ok hrun
    exact (hleaves.moved eip log retired).return_run hr hfits hinside (gateWidth_ne _) hu hcode hc hb
      released

/-- The call is taken from the code. -/
theorem Machine.LevelCall.moved {call : Linkage} (h : m.LevelCall A call w) (eip : Dword) (log : Log) :
    { m with eip := eip, log := log }.LevelCall A call w := by
  have hview := m.farView_moved eip log
  cases h with
  | near hA => exact .near hA
  | real hw hA hu hcs => exact .real hw hA hu hcs
  | direct hw hA hu hcode hd htarget =>
    exact .direct hw hA hu (hcode.moved eip log) (hview ▸ hd) htarget
  | gate hA hu hcode hd hgate htarget hsame =>
    exact .gate hA hu (hcode.moved eip log) (hview ▸ hd) hgate (hview ▸ htarget) hsame

/-- A call that keeps the privilege level succeeds, and finds the return that answers it.  The
frame is in memory that remembers, the stack can be read, and the return address is inside the code
segment and fits the frame. -/
structure Machine.CallsAndReturns (m : Machine H) (A : Dword → Prop) (call : Linkage) (w : Width)
    (offset : Dword) (released : Word) : Prop where
  calls : m.linkage? = some ⟨call, offset⟩
  level : m.LevelCall A call w
  completed : m.step.1 = .completed
  returns : ∃ next, m.step.2.linkage? = some ⟨call.answer w released, next⟩
  backs : Backs A m.host
  readable : m.segs.ss.readable = true
  fits : offset.toNat < 2 ^ w.bits
  inside : m.segs.cs.contains offset 1 = true

/-- The return from a call that keeps the privilege level succeeds and puts everything back.  A far
return in protected mode does when the code segment has a selector that is not null and the entry of
a code segment, in tables that overlap neither each other nor the frame. -/
theorem Machine.return_levelCall {call : Linkage} {released : Word} (m : Machine H)
    (h : m.CallsAndReturns A call w offset released)
    (ht : m.usesDescriptors = true → (∃ far, call = .far far) → m.TablesReturn A w) :
    m.step.2.step.1 = .completed ∧ m.Back offset released m.step.2.step.2 := by
  obtain ⟨m₁, htakes⟩ := exists_takes h.calls
  obtain ⟨log, hm₁⟩ := htakes.moved
  obtain ⟨m₂, hrun, hstep⟩ := htakes.exists_of_completed h.completed
  obtain ⟨next, hreturns⟩ := h.returns
  obtain ⟨m₃, htakes'⟩ := exists_takes hreturns
  obtain ⟨log', hm₃⟩ := htakes'.moved
  have hlevel : m₁.LevelCall A call w := hm₁ ▸ h.level.moved offset log
  have htables (hu : m₁.usesDescriptors = true) (hfar : ∃ far, call = .far far) :
      m₁.TablesReturn A w := by
    subst hm₁
    exact (ht hu hfar).moved offset log
  subst hm₁
  rw [hstep] at hm₃
  obtain ⟨m₄, hreturn, host, log'', retired, hback⟩ := hlevel.return_run h.backs h.readable h.fits
    h.inside htables hrun next log' (m₂.retired + 1) released
  rw [htakes'.completes (hm₃ ▸ hreturn)]
  exact ⟨rfl, host, log'', retired + 1, congrArg (fun m : Machine H => { m with retired := m.retired + 1 }) hback⟩

/-! ## Calls with and without a return -/

/-- A machine at level zero with a far call, and at its target a return.  Behind them are a near call
with a width of a word and its return.  The entries of the table are code, code and data. -/
def Machine.callingLevel (cs : Word) (code : Descriptor) (esp : Dword) : Machine Ram :=
  let bytes := #[
    -- the table
    0xFF, 0xFF, 0x00, 0x00, 0x00, 0x9A, 0xCF, 0x00,
    0xFF, 0xFF, 0x00, 0x00, 0x00, 0x9A, 0xCF, 0x00,
    0xFF, 0xFF, 0x00, 0x00, 0x00, 0x92, 0xCF, 0x00,
    -- the far call at `24`, and its return at `32`
    0x9A, 0x20, 0x00, 0x00, 0x00, 0x08, 0x00, 0x00,
    0xCB, 0x00, 0x00, 0x00, 0x00, 0x00, 0x00, 0x00,
    -- the near call at `40`, and its return at `46`, which releases four bytes
    0x66, 0xE8, 0x02, 0x00, 0x00, 0x00, 0x66, 0xC2,
    0x04, 0x00, 0x00, 0x00, 0x00, 0x00, 0x00, 0x00,
    0x00, 0x00, 0x00, 0x00, 0x00, 0x00, 0x00, 0x00]
  let m := Machine.initial ⟨⟨bytes⟩, none, 0, #[]⟩ {}
  { m with
    regs := (m.setReg .dword Reg.esp esp).regs
    eip := 0x18
    cr0 := Control.protection
    gdtr := ⟨0, 0x17⟩
    segs := { m.segs with
      cs := .ofDescriptor cs code
      ss := .ofDescriptor 0x10 ⟨0x0000FFFF, 0x00CF9200⟩ } }

/-- A machine before a near call.  Its stack has 16 bits and is at zero, so that the frame is at the
other end. -/
def Machine.callingNear : Machine Ram :=
  let m := callingLevel 0x08 ⟨0x0000FFFF, 0x00CF9A00⟩ 0
  { m with
    eip := 0x28
    segs := { m.segs with ss := .ofDescriptor 0x10 ⟨0x0040FFFF, 0xFF0092FF⟩ } }

/-- The code segment is a plain one, or it has a null selector or the entry of a data segment, or the
frame lies over its entry. -/
inductive Machine.LevelSetup : Word → Descriptor → Dword → Prop where
  | plain : LevelSetup 0x08 ⟨0x0000FFFF, 0x00CF9A00⟩ 0x40
  | nullCode : LevelSetup 0x00 ⟨0x0000FFFF, 0x00CF9A00⟩ 0x40
  | dataCode : LevelSetup 0x10 ⟨0x0000FFFF, 0x00CF9200⟩ 0x40
  | overlap : LevelSetup 0x08 ⟨0x0000FFFF, 0x00CF9A00⟩ 0x10

namespace Machine

variable {cs : Word} {code : Descriptor} {esp : Dword}

theorem codeLoaded_callingLevel (h : LevelSetup cs code esp) :
    (callingLevel cs code esp).CodeLoaded code where
  found := by cases h <;> decide +kernel
  cached := rfl
  present := by cases h <;> decide
  level := by cases h <;> decide +kernel

/-- The frame of a far call is the two double words under the stack pointer. -/
theorem stackByte_callingLevel (h : LevelSetup cs code esp) {a : Dword}
    (ha : ((callingLevel cs code esp).belowStack .dword 2).StackByte .dword 2 a) :
    esp.toNat - 8 ≤ a.toNat ∧ a.toNat < esp.toNat := by
  obtain ⟨k, hk, i, hi, rfl⟩ := ha
  have hall : ∀ k < 2, ∀ i < 4,
      let a := ((callingLevel cs code esp).belowStack .dword 2).stackAddress .dword k + BitVec.ofNat 32 i
      esp.toNat - 8 ≤ a.toNat ∧ a.toNat < esp.toNat := by cases h <;> decide +kernel
  exact hall k hk i hi

theorem callsAndReturns_callingLevel (h : LevelSetup cs code esp) :
    (callingLevel cs code esp).CallsAndReturns (fun a => a.toNat < 0x40)
      (.far (.transfer .call .dword ⟨0x08, 0x20⟩)) .dword 0x1F 0 where
  calls := by cases h <;> decide +kernel
  level := by
    have htarget : (callingLevel cs code esp).farView.descriptor? 0x08
        = some ⟨0x0000FFFF, 0x00CF9A00⟩ := by cases h <;> decide +kernel
    have htop : esp.toNat ≤ 0x40 := by cases h <;> decide
    exact .direct (by decide) (fun a ha => (stackByte_callingLevel h ha).2.trans_le htop)
      (by cases h <;> decide +kernel) (codeLoaded_callingLevel h) htarget (by decide)
  completed := by cases h <;> decide +kernel
  returns := ⟨0x21, by cases h <;> decide +kernel⟩
  backs := Ram.backs (m := (callingLevel cs code esp).host) rfl
  readable := by cases h <;> decide +kernel
  fits := by decide
  inside := by cases h <;> decide +kernel

theorem tablesReturn_callingLevel :
    (callingLevel 0x08 ⟨0x0000FFFF, 0x00CF9A00⟩ 0x40).TablesReturn (fun a => a.toNat < 0x40)
      .dword where
  entries _ _ ha := Nat.lt_of_le_of_lt (entryByte_le rfl rfl ha) (by decide)
  apart _ _ ha hframe := absurd (stackByte_callingLevel .plain hframe).1
    (Nat.not_le.2 (Nat.lt_of_le_of_lt (entryByte_le rfl rfl ha) (by decide)))
  tables := tablesApart_of_isNull rfl
  named := by decide +kernel
  isCode code hcode := by
    have hfound := (codeLoaded_callingLevel .plain).found
    obtain rfl := Option.some.inj (hfound.symm.trans hcode)
    decide

theorem callsAndReturns_callingNear :
    callingNear.CallsAndReturns (fun a => a.toNat < 0x40) (.nearCall .word 0x2E) .word 0x2C 4 where
  calls := by decide +kernel
  level := .near fun a ha => by
    obtain ⟨k, hk, i, hi, rfl⟩ := ha
    have hall : ∀ k < 1, ∀ i < 2, ((callingNear.belowStack .word 1).stackAddress .word k
        + BitVec.ofNat 32 i).toNat < 0x40 := by decide +kernel
    exact hall k hk i hi
  completed := by decide +kernel
  returns := ⟨0x32, by decide +kernel⟩
  backs := Ram.backs (m := callingNear.host) rfl
  readable := by decide +kernel
  fits := by decide
  inside := by decide +kernel

/-- A far call and a near call, with the returns that answer them. -/
theorem return_levelCall_callingLevel :
    ((callingLevel 0x08 ⟨0x0000FFFF, 0x00CF9A00⟩ 0x40).step.2.step.1 = .completed ∧
      (callingLevel 0x08 ⟨0x0000FFFF, 0x00CF9A00⟩ 0x40).Back 0x1F 0
        (callingLevel 0x08 ⟨0x0000FFFF, 0x00CF9A00⟩ 0x40).step.2.step.2) ∧
    callingNear.step.2.sp = 0xFFFE ∧ callingNear.step.2.step.1 = .completed ∧
      callingNear.Back 0x2C 4 callingNear.step.2.step.2 :=
  ⟨return_levelCall _ (callsAndReturns_callingLevel .plain) fun _ _ => tablesReturn_callingLevel,
    by decide +kernel, return_levelCall _ callsAndReturns_callingNear fun _ hfar => nomatch hfar⟩

/-- A far return in protected mode faults when the old code segment has a null selector or the entry
of a data segment, or when the frame lies over its entry. -/
theorem not_return_levelCall :
    ((callingLevel 0x00 ⟨0x0000FFFF, 0x00CF9A00⟩ 0x40).CallsAndReturns (fun a => a.toNat < 0x40)
        (.far (.transfer .call .dword ⟨0x08, 0x20⟩)) .dword 0x1F 0 ∧
      (callingLevel 0x00 ⟨0x0000FFFF, 0x00CF9A00⟩ 0x40).step.2.step.1
        = .fault (.generalProtection 0)) ∧
    ((callingLevel 0x10 ⟨0x0000FFFF, 0x00CF9200⟩ 0x40).CallsAndReturns (fun a => a.toNat < 0x40)
        (.far (.transfer .call .dword ⟨0x08, 0x20⟩)) .dword 0x1F 0 ∧
      (callingLevel 0x10 ⟨0x0000FFFF, 0x00CF9200⟩ 0x40).step.2.step.1
        = .fault (.generalProtection 0x10)) ∧
    ((callingLevel 0x08 ⟨0x0000FFFF, 0x00CF9A00⟩ 0x10).CallsAndReturns (fun a => a.toNat < 0x40)
        (.far (.transfer .call .dword ⟨0x08, 0x20⟩)) .dword 0x1F 0 ∧
      (callingLevel 0x08 ⟨0x0000FFFF, 0x00CF9A00⟩ 0x10).step.2.step.1
        = .fault (.generalProtection 0x08)) :=
  ⟨⟨callsAndReturns_callingLevel .nullCode, by decide +kernel⟩,
    ⟨callsAndReturns_callingLevel .dataCode, by decide +kernel⟩,
    callsAndReturns_callingLevel .overlap, by decide +kernel⟩

end Machine

end Ia32
