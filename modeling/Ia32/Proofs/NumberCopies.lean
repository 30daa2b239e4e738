import Ia32.Proofs.NumbersInMemory
import Ia32.Proofs.OperandPlaces
import Ia32.Proofs.SavedState

/-!
# Copies through the register stack

A number that is loaded from memory and then stored in its own format is copied.
The bytes come out as they went in, at every rounding, but for the quiet bit of a
NaN that signals (`NumberFormat.copied`).  The load may record that a NaN signaled
or that a number was denormal, the store records nothing, and the stack ends as it
began.

The two steps meet in the unit that the load leaves (`Fpu.loaded`): the top
register then holds a number that the store writes as the copied bytes
(`Fpu.writes_loaded`).  Exceptions are masked throughout, so both programs come to
their ends (`FloatExec.Runs`).
-/

namespace Ia32

open Host Exec

variable {H : Type}

/-! ## Masked exceptions -/

namespace Fpu

variable {f : Fpu}

/-- All exceptions are masked. -/
def IsMaskingAll (f : Fpu) : Prop := f.control &&& Status.exceptions = Status.exceptions

theorem IsMaskingAll.unmasked_eq (h : f.IsMaskingAll) (bits : Word) : f.unmasked bits = 0 := by
  apply BitVec.eq_of_getLsbD_eq
  intro i hi
  have hbit := congrArg (BitVec.getLsbD · i) h
  simp only [BitVec.getLsbD_and] at hbit
  simp only [unmasked, BitVec.getLsbD_and, BitVec.getLsbD_not, hi, decide_true, Bool.true_and]
  cases hmask : Status.exceptions.getLsbD i <;> simp_all

theorem setCondition_zero (f : Fpu) : f.setCondition 0 true = f :=
  congrArg (fun status => { f with status := status }) BitVec.or_zero

/-- Masked exceptions are only recorded. -/
theorem IsMaskingAll.raise_eq (h : f.IsMaskingAll) (bits : Word) :
    f.raise bits = (false, f.setCondition bits true) := by
  rw [raise, h.unmasked_eq]
  rfl

end Fpu

/-! ## Programs that are not stopped -/

namespace FloatExec

variable {α β : Type} {m m₁ m₂ : Machine H} {p : Prefixes}

/-- A program that may be stopped comes to its end. -/
def Runs (x : FloatExec H α) (m : Machine H) (a : α) (m' : Machine H) : Prop :=
  EStateM.run x.run m = .ok (some a) m'

namespace Runs

theorem pure (a : α) (m : Machine H) : Runs (Pure.pure a) m a m := rfl

theorem bind {x : FloatExec H β} {k : β → FloatExec H α} {b : β} {a : α} (hx : x.Runs m b m₁)
    (hk : (k b).Runs m₁ a m₂) : (x >>= k).Runs m a m₂ := by
  rw [Runs, OptionT.run_bind]
  exact (run_bind_of_ok hx _).trans hk

theorem lift {x : Exec H α} {a : α} (hx : x.run m = .ok a m₁) : Runs (x : FloatExec H α) m a m₁ :=
  run_bind_of_ok hx _

theorem view (g : Fpu → α) (m : Machine H) : Runs (FloatExec.view g) m (g m.fpu) m := rfl

theorem update (g : Fpu → Fpu) (m : Machine H) :
    Runs (FloatExec.update g) m () { m with fpu := g m.fpu } := rfl

theorem toExec {x : FloatExec H Unit} (hx : x.Runs m () m₁) : x.toExec.run m = .ok () m₁ :=
  run_bind_of_ok hx _

theorem raise (hm : m.fpu.IsMaskingAll) (bits : Word) :
    Runs (FloatExec.raise p bits) m () { m with fpu := m.fpu.setCondition bits true } := by
  have hrecord : (record bits : Exec H Bool).run m =
      .ok false { m with fpu := m.fpu.setCondition bits true } := by
    refine Ends.run_eq ?_
    rw [record, ends_updateWith, hm.raise_eq]
    exact ⟨rfl, rfl⟩
  exact .bind (.lift hrecord) (.pure () _)

end Runs

theorem requireRoom_runs (h : m.fpu.tag 7 = .empty) : (requireRoom p).Runs m () m := by
  refine .bind (.view _ m) ?_
  rw [if_neg (not_not.2 h)]
  exact .pure () m

theorem requireFull_runs {i : Nat} (h : m.fpu.tag i ≠ .empty) : (requireFull p i).Runs m () m := by
  refine .bind (.view _ m) ?_
  rw [if_neg h]
  exact .pure () m

/-- A load pushes what was read. -/
theorem load_runs {format : NumberFormat} {loaded : Loaded} (hm : m.fpu.IsMaskingAll)
    (hroom : m.fpu.tag 7 = .empty) {exceptions : Word}
    (he : exceptions = if loaded.signals format then Exception.invalid
      else if loaded.denormal then Exception.denormal else 0) :
    (load p format loaded).Runs m ()
      { m with fpu := (m.fpu.setCondition exceptions true).pushNumber (loaded.pushed format) } := by
  have hpush (f : Fpu) (x : Extended) :
      (update (·.pushNumber x)).Runs { m with fpu := f } () { m with fpu := f.pushNumber x } :=
    .update _ _
  refine .bind (requireRoom_runs hroom) ?_
  change Runs (ite (loaded.signals format = true) _ _) m _ _
  rw [he, Loaded.pushed]
  cases loaded.signals format with
  | true => exact .bind (.raise hm _) (hpush _ _)
  | false =>
    cases hdenormal : loaded.denormal with
    | true =>
      simp only [Bool.false_eq_true, if_false, if_true]
      exact .bind (.raise hm _) (hpush _ _)
    | false =>
      simp only [Bool.false_eq_true, if_false, Fpu.setCondition_zero]
      exact hpush _ _

theorem raiseEach_zero (p : Prefixes) (bits : List Word) :
    (raiseEach p 0 bits : FloatExec H Unit) = pure () := by
  induction bits with
  | nil => rfl
  | cons bit bits ih =>
    unfold raiseEach
    simp only [BitVec.ofNat_eq_ofNat, BitVec.zero_and, ne_eq, not_true, if_false]
    exact ih

theorem raiseEach_zero_runs (p : Prefixes) (bits : List Word) (m : Machine H) :
    (raiseEach p 0 bits).Runs m () m := by
  rw [raiseEach_zero]
  exact .pure () m

/-- A store that raises nothing. -/
theorem raiseStore_zero_runs (p : Prefixes) (m : Machine H) : (raiseStore p 0).Runs m () m := by
  unfold raiseStore raiseIfAmong raiseAfter
  simp only [BitVec.ofNat_eq_ofNat, BitVec.zero_and, if_true]
  refine .bind (.pure () m) (.bind (raiseEach_zero_runs p _ m) ?_)
  refine .bind (.lift (rfl : EStateM.run get m = .ok m m)) ?_
  simp only [ne_eq, not_true, decide_false, Bool.false_and, Bool.false_eq_true, if_false]
  exact raiseEach_zero_runs p _ m

variable [Host H] {seg : Seg} {offset : Dword} {bytes : List Byte}

theorem storeBytes_runs (hg : (m.segs.get seg).Grants m.toProcessor .write offset bytes.length)
    (ha : ¬Refuses m.host ((m.segs.get seg).base + offset) bytes) :
    (storeBytes seg offset bytes).Runs m ()
      { m with host := storeAll m.host ((m.segs.get seg).base + offset) bytes } :=
  .lift (storeBytes_accepted hg ha)

/-- The program that stores the top register in a format and pops it. -/
def storeNumber (p : Prefixes) (seg : Seg) (offset : Dword) : NumberFormat → FloatExec H Unit
  | .real format => storeReal p seg offset format true
  | .int format => storeInt p seg offset format true

/-- A store of a number that the format holds writes it and pops the register. -/
theorem storeNumber_runs {format : NumberFormat} (hfull : m.fpu.tag 0 ≠ .empty)
    (hw : format.Writes m.fpu.rounding (m.fpu.st 0) bytes)
    (hg : (m.segs.get seg).Grants m.toProcessor .write offset bytes.length)
    (ha : ¬Refuses m.host ((m.segs.get seg).base + offset) bytes) :
    (storeNumber p seg offset format).Runs m ()
      { m with
        host := storeAll m.host ((m.segs.get seg).base + offset) bytes
        fpu := m.fpu.pop } := by
  have hvalue : m.fpu.value 0 = m.fpu.st 0 := if_neg hfull
  have hpop (h : H) : (popIf true : FloatExec H Unit).Runs { m with host := h } ()
      { m with host := h, fpu := m.fpu.pop } := .update _ _
  cases format with
  | real format =>
    refine .bind (requireFull_runs hfull) (.bind (.view _ m) (.bind (.view _ m) ?_))
    have hstored : Stored.ofReal format m.fpu.rounding (m.fpu.value 0) = ⟨bytes, 0⟩ := by
      rw [hvalue]
      exact hw
    rw [hstored]
    exact .bind (raiseStore_zero_runs p m) (.bind (storeBytes_runs hg ha) (hpop _))
  | int format =>
    obtain ⟨n, hint, hfits, rfl⟩ := hw
    refine .bind (requireFull_runs hfull) (.bind (.view _ m) ?_)
    have hround : (roundToFormat p format (m.fpu.value 0)).Runs m n m := by
      unfold roundToFormat
      refine .bind (.view _ m) ?_
      rw [hvalue, hint]
      dsimp only
      rw [hfits, if_pos rfl]
      exact .pure n m
    exact .bind hround (.bind (storeBytes_runs hg ha) (hpop _))

end FloatExec

/-- The exceptions of a load are among the exceptions. -/
theorem NumberFormat.loadExceptions_within (format : NumberFormat) (bytes : List Byte) :
    format.loadExceptions bytes &&& ~~~Status.exceptions = 0 := by
  unfold loadExceptions
  split
  next f _ =>
    by_cases hsignals : f.IsSignaling (littleEndian bytes)
    · rw [if_pos hsignals]
      rfl
    · rw [if_neg hsignals]
      split <;> rfl
  next => rfl

/-! ## Pushing and popping -/

namespace Fpu

variable {f : Fpu}

theorem st_pushNumber (f : Fpu) (x : Extended) : (f.pushNumber x).st 0 = x :=
  Vector.getElem_set_self _

theorem tag_pushNumber_ne_empty (f : Fpu) (x : Extended) : (f.pushNumber x).tag 0 ≠ .empty := by
  change (setTagAt (f.push.setSt 0 x) (f.push.physical 0) _).tagAt (f.push.physical 0) ≠ _
  rw [tagAt_setTagAt, if_pos rfl]
  exact tag_ofNumber_ne_empty _

/-- A register that was empty is empty again with the same bits. -/
theorem tags_setTagAt_empty {r : Fin 8} (h : f.tagAt r = .empty) (t : Tag) :
    ((f.setTagAt r t).setTagAt r .empty).tags = f.tags := by
  have hbits : ∀ bits : BitVec 2, Tag.ofBits bits = .empty → bits = Tag.empty.toBits := by decide
  have hempty := hbits _ h
  apply BitVec.eq_of_getLsbD_eq
  intro i hi
  rw [getLsbD_tags_setTagAt _ r _ hi, getLsbD_tags_setTagAt _ r _ hi]
  split
  next hin =>
    have hlt : i - 2 * r.val < 2 := by omega
    have hplace : 2 * r.val + (i - 2 * r.val) = i := by omega
    rw [← hempty, BitVec.getLsbD_extractLsb', hplace, decide_eq_true hlt, Bool.true_and]
  next => rfl

theorem physical_push (f : Fpu) : f.push.physical 0 = f.physical 7 := by
  have h : ∀ top : Byte,
      Fin.ofNat 8 (((top - 1) &&& 7).toNat + 0) = Fin.ofNat 8 (top.toNat + 7) := by decide
  exact h f.top

/-- Popping a number that was pushed leaves the tags as they were. -/
theorem tags_pop_pushNumber (h : f.tag 7 = .empty) (x : Extended) :
    (f.pushNumber x).pop.tags = f.tags := by
  rw [tag, ← physical_push] at h
  exact tags_setTagAt_empty h _

theorem top_pop_pushNumber (f : Fpu) (x : Extended) : (f.pushNumber x).pop.top = f.top &&& 7 := by
  have h : ∀ top : Byte, (((top - 1) &&& 7) + 1) &&& 7 = top &&& 7 := by decide
  exact h f.top

/-- Clearing condition one before and after exceptions are recorded. -/
theorem status_clear_raise_clear (f : Fpu) {bits : Word} (h : bits &&& Status.c1 = 0) :
    (((f.setCondition Status.c1 false).setCondition bits true).setCondition
      Status.c1 false).status = f.status &&& ~~~Status.c1 ||| bits := by
  change (f.status &&& ~~~Status.c1 ||| bits) &&& ~~~Status.c1 = _
  apply BitVec.eq_of_getLsbD_eq
  intro i hi
  have hbit := congrArg (BitVec.getLsbD · i) h
  simp only [BitVec.getLsbD_and] at hbit
  simp only [BitVec.getLsbD_and, BitVec.getLsbD_or, BitVec.getLsbD_not, hi, decide_true,
    Bool.true_and]
  cases hmask : Status.c1.getLsbD i <;> simp_all

/-- What becomes of the unit when it loads a number and nothing stops it. -/
def loaded (f : Fpu) (format : NumberFormat) (bytes : List Byte) : Fpu :=
  ((f.setCondition Status.c1 false).setCondition (format.loadExceptions bytes) true).pushNumber
    ((FloatExec.Loaded.ofBytes format bytes).pushed format)

theorem tag_loaded_ne_empty (f : Fpu) (format : NumberFormat) (bytes : List Byte) :
    (f.loaded format bytes).tag 0 ≠ .empty :=
  tag_pushNumber_ne_empty _ _

theorem isPending_loaded (f : Fpu) (format : NumberFormat) (bytes : List Byte) :
    (f.loaded format bytes).isPending = f.isPending := by
  have hraised := and_eq_zero_of_within (format.loadExceptions_within bytes)
    (show Status.exceptions &&& Status.summary = 0 by decide)
  have hpushed : (f.loaded format bytes).isPending = ((f.setCondition Status.c1 false).setCondition
      (format.loadExceptions bytes) true).isPending := rfl
  rw [hpushed, isPending_setCondition _ hraised, isPending_setCondition _ (by decide)]

/-- What was loaded is stored again as what it is. -/
theorem writes_loaded (f : Fpu) {format : NumberFormat} {bytes : List Byte}
    (hlen : bytes.length = format.bytes) :
    format.Writes f.rounding ((f.loaded format bytes).st 0) (format.copied bytes) := by
  rw [loaded, st_pushNumber]
  exact format.writes_pushed _ hlen

/-! The unit after the load and a store that pops the number again. -/

theorem status_pop_loaded (f : Fpu) (format : NumberFormat) (bytes : List Byte) :
    ((f.loaded format bytes).setCondition Status.c1 false).pop.status =
      f.status &&& ~~~Status.c1 ||| format.loadExceptions bytes :=
  f.status_clear_raise_clear
    (and_eq_zero_of_within (format.loadExceptions_within bytes) (by decide))

theorem tags_pop_loaded (h : f.tag 7 = .empty) (format : NumberFormat) (bytes : List Byte) :
    ((f.loaded format bytes).setCondition Status.c1 false).pop.tags = f.tags :=
  tags_pop_pushNumber (f := (f.setCondition Status.c1 false).setCondition _ true) h
    ((FloatExec.Loaded.ofBytes format bytes).pushed format)

theorem top_pop_loaded (f : Fpu) (format : NumberFormat) (bytes : List Byte) :
    ((f.loaded format bytes).setCondition Status.c1 false).pop.top = f.top &&& 7 :=
  top_pop_pushNumber ((f.setCondition Status.c1 false).setCondition _ true)
    ((FloatExec.Loaded.ofBytes format bytes).pushed format)

end Fpu

/-! ## Steps -/

section Steps

variable [Host H] {m m₁ m₂ m₃ : Machine H} {p : Prefixes} {seg : Seg} {offset : Dword}
  {format : NumberFormat} {bytes : List Byte}

/-- A unit that remembers another instruction as its last one. -/
def Fpu.remembering (f : Fpu) (offset : Dword) (selector opcode : Word) : Fpu :=
  { f with ipOffset := offset, ipSelector := selector, opcode := opcode }

/-- A step whose instruction works on the register stack and succeeds is completed, and the unit
remembers it. -/
theorem Machine.Accesses.step_remembering {access : FloatAccess} {number : BitVec 3} {b : Byte}
    {m' : Machine H} (h : m.Accesses access number b m₁ m₂ m₃)
    (hc : access.instruction.isControl = false)
    (hr : (runFloat access.markers (.ofByte b) access.instruction).run m₂ = .ok () m') :
    ∃ offset selector opcode, m.step = (.completed,
      { m' with fpu := m'.fpu.remembering offset selector opcode, retired := m'.retired + 1 }) := by
  have hescape : (escape access.markers number).run m₁ = .ok () { m' with
      fpu := m'.fpu.remembering access.markers.start m'.segs.cs.selector
        ((number ++ (ModeByte.ofByte b).toByte).setWidth 16) } := by
    rw [escape, run_bind_of_ok h.byte]
    dsimp only
    rw [h.decodes]
    dsimp only
    rw [run_bind_of_ok hr, hc]
    rfl
  exact ⟨access.markers.start, m'.segs.cs.selector, _, step_of_run h.fetches hescape⟩

/-- A waiting instruction finds its operand after condition one is cleared. -/
theorem Machine.Accesses.operand_ready {access : FloatAccess} {number : BitVec 3} {b : Byte}
    (h : m.Accesses access number b m₁ m₂ m₃) (f : Fpu) :
    (memoryOperand access.markers (.ofByte b)).run { m₂ with fpu := f } =
      .ok (access.seg, access.offset) { m₃ with fpu := f } := by
  have hrun := (memoryOperand_ignoresUnit access.markers (.ofByte b)).run_unit m₂ f
  have hoperand : memoryOperand access.markers (.ofByte b) m₂ = _ := h.operand
  rw [hoperand] at hrun
  exact hrun

/-- A program that works on a place in memory starts there, with condition one cleared. -/
theorem Machine.Accesses.withPlace_run {access : FloatAccess} {number : BitVec 3} {b : Byte}
    (h : m.Accesses access number b m₁ m₂ m₃) (hl : access.markers.lock = false)
    (hc : m.cr0 &&& (Control.emulation ||| Control.taskSwitched) = 0)
    (hp : m.fpu.isPending = false) (action : Seg → Dword → FloatExec H Unit) :
    (withPlace access.markers (.ofByte b) action).run m₂ =
      (action access.seg access.offset).toExec.run
        { m₃ with fpu := m.fpu.setCondition Status.c1 false } := by
  obtain ⟨eip, log, rfl⟩ := h.moved
  have hready := checkReady_run (m := { m with eip := eip, log := log }) hl hc hp
  rw [withPlace, run_bind_of_ok hready, run_bind_of_ok (h.operand_ready _)]

/-- A program that works on a number in memory starts with it. -/
theorem Machine.Accesses.withNumber_run {access : FloatAccess} {number : BitVec 3} {b : Byte}
    (h : m.Accesses access number b m₁ m₂ m₃) (hl : access.markers.lock = false)
    (hc : m.cr0 &&& (Control.emulation ||| Control.taskSwitched) = 0)
    (hp : m.fpu.isPending = false)
    (hg : (m.segs.get access.seg).Grants m.toProcessor .read access.offset format.bytes)
    (hr : hostBytes m.host ((m.segs.get access.seg).base + access.offset) format.bytes = .ok bytes)
    (action : FloatExec.Loaded → FloatExec H Unit) :
    (withNumber access.markers (.ofByte b) format action).run m₂ =
      (action (.ofBytes format bytes)).toExec.run
        { m₃ with fpu := m.fpu.setCondition Status.c1 false } := by
  obtain ⟨eip, log, rfl⟩ := h.moved
  obtain ⟨eip', log', rfl⟩ := h.moved'
  have hready := checkReady_run (m := { m with eip := eip, log := log }) hl hc hp
  have hread : (FloatExec.readNumber access.seg access.offset format).run
      { m with eip := eip', log := log', fpu := m.fpu.setCondition Status.c1 false } =
        .ok (.ofBytes format bytes)
          { m with eip := eip', log := log', fpu := m.fpu.setCondition Status.c1 false } := by
    have hbytes : (loadBytes access.seg access.offset format.bytes).run
        { m with eip := eip', log := log', fpu := m.fpu.setCondition Status.c1 false } = _ :=
      loadBytes_of_grants ⟨hg.rights, hg.bounds⟩ hr
    rw [FloatExec.readNumber, run_bind_of_ok hbytes]
    rfl
  rw [withNumber, run_bind_of_ok hready, run_bind_of_ok (h.operand_ready _)]
  dsimp only
  rw [run_bind_of_ok hread]

/-- A step that loads a number. -/
theorem Machine.step_load (ha : m.floatAccess? = some ⟨p, .load format, seg, offset⟩)
    (hl : p.lock = false) (hc : m.cr0 &&& (Control.emulation ||| Control.taskSwitched) = 0)
    (hp : m.fpu.isPending = false) (hm : m.fpu.IsMaskingAll) (hroom : m.fpu.tag 7 = .empty)
    (hg : (m.segs.get seg).Grants m.toProcessor .read offset format.bytes)
    (hr : hostBytes m.host ((m.segs.get seg).base + offset) format.bytes = .ok bytes) :
    ∃ eip log retired ipOffset ipSelector opcode, m.step = (.completed,
      { m with
        eip := eip
        log := log
        retired := retired
        fpu := (m.fpu.loaded format bytes).remembering ipOffset ipSelector opcode }) := by
  obtain ⟨number, b, m₁, m₂, m₃, h⟩ := exists_accesses ha
  have hrun := h.withNumber_run hl hc hp hg hr (FloatExec.load p format)
  obtain ⟨eip, log, rfl⟩ := h.moved'
  have hload := FloatExec.load_runs (p := p)
    (m := { m with eip := eip, log := log, fpu := m.fpu.setCondition Status.c1 false }) hm hroom
    (format.loadExceptions_eq (length_hostBytes hr))
  obtain ⟨ipOffset, ipSelector, opcode, hstep⟩ := h.step_remembering rfl (hrun.trans hload.toExec)
  exact ⟨_, _, _, _, _, _, hstep⟩

/-- The instruction that stores the top register in a format and pops it. -/
def NumberFormat.storing : NumberFormat → FloatInstruction
  | .real format => .storeReal format true
  | .int format => .storeInt format true

omit [Host H] in
theorem NumberFormat.isControl_storing (format : NumberFormat) :
    format.storing.isControl = false := by
  cases format <;> rfl

theorem runFloat_storing (p : Prefixes) (mode : ModeByte) (format : NumberFormat) :
    (runFloat p mode format.storing : Exec H Unit) =
      withPlace p mode fun seg offset => FloatExec.storeNumber p seg offset format := by
  cases format <;> rfl

/-- A step that stores a number that the format holds. -/
theorem Machine.step_store (ha : m.floatAccess? = some ⟨p, format.storing, seg, offset⟩)
    (hl : p.lock = false) (hc : m.cr0 &&& (Control.emulation ||| Control.taskSwitched) = 0)
    (hp : m.fpu.isPending = false) (hfull : m.fpu.tag 0 ≠ .empty)
    (hw : format.Writes m.fpu.rounding (m.fpu.st 0) bytes)
    (hg : (m.segs.get seg).Grants m.toProcessor .write offset bytes.length)
    (hs : ¬Refuses m.host ((m.segs.get seg).base + offset) bytes) :
    ∃ eip log retired ipOffset ipSelector opcode, m.step = (.completed,
      { m with
        eip := eip
        log := log
        retired := retired
        host := storeAll m.host ((m.segs.get seg).base + offset) bytes
        fpu := (m.fpu.setCondition Status.c1 false).pop.remembering ipOffset ipSelector
          opcode }) := by
  obtain ⟨number, b, m₁, m₂, m₃, h⟩ := exists_accesses ha
  have hrun := h.withPlace_run hl hc hp fun seg offset => FloatExec.storeNumber p seg offset format
  obtain ⟨eip, log, rfl⟩ := h.moved'
  have hstore := FloatExec.storeNumber_runs (p := p)
    (m := { m with eip := eip, log := log, fpu := m.fpu.setCondition Status.c1 false }) hfull hw
    ⟨hg.rights, hg.bounds⟩ hs
  rw [← runFloat_storing] at hrun
  obtain ⟨ipOffset, ipSelector, opcode, hstep⟩ :=
    h.step_remembering format.isControl_storing (hrun.trans hstore.toExec)
  exact ⟨_, _, _, _, _, _, hstep⟩

/-! ## Loading and storing -/

/-- What a load and a store have done together.  The number stands at its new place, and the stack
is as it was.  Its top is a number of three bits. -/
structure Machine.Copied (m m' : Machine H) (linear : Dword) (format : NumberFormat)
    (bytes : List Byte) : Prop where
  host_eq : m'.host = storeAll m.host linear (format.copied bytes)
  status_eq : m'.fpu.status = m.fpu.status &&& ~~~Status.c1 ||| format.loadExceptions bytes
  tags_eq : m'.fpu.tags = m.fpu.tags
  top_eq : m'.fpu.top = m.fpu.top &&& 7

/-- A number that is loaded from memory and stored again in its format is copied.  The exceptions
are those of the load. -/
theorem Machine.store_load (m : Machine H)
    (hc : m.cr0 &&& (Control.emulation ||| Control.taskSwitched) = 0)
    (hp : m.fpu.isPending = false) (hm : m.fpu.IsMaskingAll) (hroom : m.fpu.tag 7 = .empty)
    (ha : m.floatAccess? = some ⟨p, .load format, seg, offset⟩) (hl : p.lock = false)
    (hg : (m.segs.get seg).Grants m.toProcessor .read offset format.bytes)
    (hr : hostBytes m.host ((m.segs.get seg).base + offset) format.bytes = .ok bytes) :
    m.step.1 = .completed ∧ m.step.2.host = m.host ∧
      ∀ p' seg' offset', m.step.2.floatAccess? = some ⟨p', format.storing, seg', offset'⟩ →
        p'.lock = false →
        (m.segs.get seg').Grants m.toProcessor .write offset' format.bytes →
        ¬Refuses m.host ((m.segs.get seg').base + offset') (format.copied bytes) →
        m.step.2.step.1 = .completed ∧
          m.Copied m.step.2.step.2 ((m.segs.get seg').base + offset') format bytes := by
  obtain ⟨eip, log, retired, ipOffset, ipSelector, opcode, hload⟩ :=
    step_load ha hl hc hp hm hroom hg hr
  rw [hload]
  refine ⟨rfl, rfl, fun p' seg' offset' ha' hl' hg' hs' => ?_⟩
  have hlen := length_hostBytes hr
  rw [← hlen, ← format.length_copied] at hg'
  obtain ⟨_, _, _, _, _, _, hstore⟩ := step_store ha' hl' hc
    ((m.fpu.isPending_loaded format bytes).trans hp) (m.fpu.tag_loaded_ne_empty format bytes)
    (m.fpu.writes_loaded hlen) ⟨hg'.rights, hg'.bounds⟩ hs'
  rw [hstore]
  exact ⟨rfl, rfl, m.fpu.status_pop_loaded format bytes, Fpu.tags_pop_loaded hroom format bytes,
    m.fpu.top_pop_loaded format bytes⟩

end Steps

/-- A machine before it copies a double from offset `10` to offset `18`.  It is a NaN that
signals. -/
def Machine.copyingNan : Machine Ram :=
  let bytes := #[0xDD, 0x05, 0x10, 0x00, 0x00, 0x00, 0xDD, 0x1D, 0x18, 0x00, 0x00, 0x00, 0, 0, 0, 0]
    ++ #[0x01, 0x00, 0x00, 0x00, 0x00, 0x00, 0xF4, 0xFF] ++ Array.replicate 8 0
  let m := Machine.initial ⟨⟨bytes⟩, none, 0, #[]⟩ {}
  { m with
    eip := 0
    cr0 := Control.protection
    segs := { Segments.initial with
      cs := .ofDescriptor 0x08 ⟨0x0000FFFF, 0x00CF9A00⟩
      ds := .ofDescriptor 0x10 ⟨0x0000FFFF, 0x00CF9200⟩ } }

/-- The NaN becomes quiet, and only that it signaled is recorded. -/
theorem Machine.store_load_copyingNan :
    hostBytes copyingNan.step.2.step.2.host 0x18 8 = .ok [0x01, 0, 0, 0, 0, 0, 0xFC, 0xFF] ∧
      copyingNan.step.2.step.2.fpu.status = Exception.invalid := by
  have hread : hostBytes copyingNan.host ((copyingNan.segs.get .ds).base + 0x10) 8 =
      .ok [0x01, 0, 0, 0, 0, 0, 0xF4, 0xFF] := by decide +kernel
  have hcopied : (NumberFormat.real .double).copied [0x01, 0, 0, 0, 0, 0, 0xF4, 0xFF] =
      [0x01, 0, 0, 0, 0, 0, 0xFC, 0xFF] := by decide +kernel
  have hin : Within (fun a => a.toNat < copyingNan.host.bytes.size)
      ((copyingNan.segs.get .ds).base + 0x18) 8 := by
    unfold Within
    decide +kernel
  have hload : copyingNan.floatAccess? =
      some ⟨{ start := 0 }, .load (.real .double), .ds, 0x10⟩ := by decide +kernel
  have hstore : copyingNan.step.2.floatAccess? =
      some ⟨{ start := 6 }, (NumberFormat.real .double).storing, .ds, 0x18⟩ := by decide +kernel
  have hbacks : Backs (fun a => a.toNat < copyingNan.host.bytes.size) copyingNan.host :=
    Ram.backs rfl
  obtain ⟨-, -, hstored⟩ := store_load copyingNan (by decide) (by decide) rfl (by decide) hload rfl
    ⟨by decide, by decide⟩ hread
  obtain ⟨-, hcopy⟩ := hstored _ _ _ hstore rfl ⟨by decide, by decide⟩ <| by
    rw [hcopied]
    exact not_refuses_of_backs hbacks hin
  refine ⟨?_, hcopy.status_eq⟩
  rw [hcopy.host_eq, hcopied]
  exact hostBytes_storeAll hbacks hin (by decide)

end Ia32
