import Ia32.Host.Ram
import Ia32.Proofs.BackedMemory
import Ia32.Proofs.FloatEffects
import Ia32.Proofs.FpuStates
import Ia32.Proofs.StepRuns

/-!
# Saving and restoring the floating-point unit

The image of a well-formed state gives the state back, register for register and
bit for bit.  The image packs the top of the stack into the status word and the
opcode above a selector, and the summary bits are computed anew from what was
read.  All of this cancels out.

Saving initializes the unit.  So no exception is pending when the image is
loaded, and condition one, which a load clears first, is clear already.
-/

namespace Ia32

open Host Exec

/-! ## Items of a sequence -/

/-- An item of a sequence that is written out as bytes, each item in as many. -/
theorem take_drop_flatMap {α β : Type} {g : α → List β} {k : Nat} (hg : ∀ x, (g x).length = k)
    (xs : List α) (rest : List β) {i : Nat} (hi : i < xs.length) :
    ((xs.flatMap g ++ rest).drop (k * i)).take k = g xs[i] := by
  induction xs generalizing i with
  | nil => cases hi
  | cons x xs ih =>
    rw [List.flatMap_cons, List.append_assoc]
    cases i with
    | zero => exact List.take_left' (hg x)
    | succ i =>
      have hsplit : k * (i + 1) = (g x).length + k * i := by rw [hg, Nat.mul_succ, Nat.add_comm]
      rw [hsplit, List.drop_length_add_append]
      exact ih (Nat.lt_of_succ_lt_succ hi)

theorem length_flatMap_of_length {α β : Type} {g : α → List β} {k : Nat}
    (hg : ∀ x, (g x).length = k) (xs : List α) : (xs.flatMap g).length = xs.length * k := by
  simp only [List.length_flatMap, hg, List.map_const', List.sum_replicate_nat]

theorem Extended.length_toBytes (x : Extended) : x.toBytes.length = 10 := by
  rw [Extended.toBytes, List.length_append, length_bytesOf, length_bytesOf]

namespace Fpu

variable {f : Fpu}

/-! ## The image -/

theorem length_headerBytes (f : Fpu) :
    (f.imageHeader.flatMap fun d => bytesOf 4 d.toNat).length = 28 :=
  length_flatMap_of_length (fun _ => length_bytesOf 4 _) _

theorem length_saveImage (f : Fpu) : f.saveImage.length = imageSize := by
  rw [saveImage, List.length_append, length_headerBytes, length_flatMap_of_length Extended.length_toBytes,
    Vector.length_toList]
  rfl

/-- The double words of an image are those that were written. -/
theorem imageDword_saveImage (f : Fpu) {i : Nat} (hi : i < f.imageHeader.length) :
    imageDword f.saveImage i = f.imageHeader[i] := by
  rw [imageDword, saveImage, take_drop_flatMap (fun _ => length_bytesOf 4 _) _ _ hi]
  exact ofNat_littleEndian_bytesOf 4 _

/-- The registers of an image are those that were written. -/
theorem imageRegister_saveImage (h : f.WellFormed) (r : Fin 8) :
    imageRegister f.saveImage r = f.regs.get r := by
  have hlen : r.val < f.regs.toList.length := by simp
  have hbytes : (f.saveImage.drop (28 + 10 * r)).take 10 = (f.regs.get r).toBytes := by
    have hrest := take_drop_flatMap Extended.length_toBytes f.regs.toList [] hlen
    rw [List.append_nil] at hrest
    rw [saveImage, ← f.length_headerBytes, List.drop_length_add_append, hrest]
    rfl
  rw [imageRegister, hbytes]
  exact Extended.ofBytes_toBytes (h.encodings r)

/-! ## What the image packs -/

theorem getLsbD_of_lt {w k i : Nat} {x : BitVec w} (hx : x.toNat < 2 ^ k) (hi : k ≤ i) :
    x.getLsbD i = false :=
  Nat.testBit_lt_two_pow (Nat.lt_of_lt_of_le hx (Nat.pow_le_pow_right (by decide) hi))

/-- The opcode stands above the selector. -/
theorem packed_selector (selector opcode : Word) :
    (selector.setWidth 32 ||| ((opcode.setWidth 32 &&& 0x7FF) <<< 16) : Dword).setWidth 16
      = selector := by
  apply BitVec.eq_of_getLsbD_eq
  intro i hi
  simp [hi]

theorem packed_opcode (selector : Word) {opcode : Word} (h : opcode ≤ 0x7FF) :
    (selector.setWidth 32 ||| ((opcode.setWidth 32 &&& 0x7FF) <<< 16) : Dword).extractLsb' 16 16
      &&& 0x7FF = opcode := by
  have hlt : opcode.toNat < 2 ^ 11 := Nat.lt_succ_of_le h
  apply BitVec.eq_of_getLsbD_eq
  intro i hi
  have hhigh := getLsbD_of_lt (i := i) hlt
  interval_cases i <;> simp_all

/-- The top of the stack names a register, and the status has no bits in its place. -/
structure Intact (f : Fpu) : Prop where
  top_le : f.top ≤ 7
  status_top : f.status &&& Status.top = 0

theorem WellFormed.intact (h : f.WellFormed) : f.Intact := ⟨h.top_le, h.status_top⟩

/-- The top of the stack has its place in the status word. -/
theorem setStatusWord_statusWord (h : f.Intact) : f.setStatusWord f.statusWord = f := by
  have hlt : f.top.toNat < 2 ^ 3 := Nat.lt_succ_of_le h.top_le
  -- The three bits of the top are clear in the status, and the top has no other bits.
  have htop : (f.statusWord.extractLsb' 11 3).setWidth 8 = f.top := by
    apply BitVec.eq_of_getLsbD_eq
    intro i hi
    have hhigh := getLsbD_of_lt (i := i) hlt
    interval_cases i <;> simp_all [statusWord, Status.top]
  have hstatus : f.statusWord &&& ~~~Status.top = f.status := by
    apply BitVec.eq_of_getLsbD_eq
    intro i hi
    have hclear : (f.status &&& Status.top).getLsbD i = false := by
      rw [h.status_top]
      exact BitVec.getLsbD_zero
    have hhigh := getLsbD_of_lt (i := i - 11) hlt
    interval_cases i <;> simp_all [statusWord, Status.top]
  rw [setStatusWord, htop, hstatus]

/-- The summary bits of a well-formed state are what they are computed to be. -/
theorem WellFormed.summarize_eq (h : f.WellFormed) : f.summarize = f := by
  have hsummary : f.status.getLsbD 7 = (f.unmasked f.status != 0) := by
    rw [Bool.eq_iff_iff, bne_iff_ne, ← h.summary]
    exact (and_twoPow_ne_zero_iff (by decide) f.status).symm
  have hbusy : f.status.getLsbD 15 = (f.unmasked f.status != 0) := by
    rw [Bool.eq_iff_iff, bne_iff_ne, ← h.busy]
    exact (and_twoPow_ne_zero_iff (by decide) f.status).symm
  have hstatus : f.summarize.status = f.status := by
    apply BitVec.eq_of_getLsbD_eq
    intro i hi
    rw [Fpu.summarize]
    generalize (f.unmasked f.status != 0) = on at hsummary hbusy
    cases on <;> interval_cases i <;> simp_all [Fpu.setCondition, Status.summary, Status.busy]
  exact congrArg (fun status => { f with status := status }) hstatus

/-- The image of a well-formed state gives the state back. -/
theorem loadImage_saveImage (h : f.WellFormed) : loadImage f.saveImage = f := by
  have hregs : (Vector.ofFn fun r : Fin 8 => imageRegister f.saveImage r) = f.regs := by
    ext r hr
    rw [Vector.getElem_ofFn]
    exact imageRegister_saveImage h ⟨r, hr⟩
  have hdword (i : Fin 7) : imageDword f.saveImage i = f.imageHeader[i] :=
    f.imageDword_saveImage i.isLt
  have hcontrol : (imageDword f.saveImage 0).setWidth 16 = f.control :=
    (congrArg _ (hdword 0)).trans (Word.setWidth_dword _)
  have hstatus : (imageDword f.saveImage 1).setWidth 16 = f.statusWord :=
    (congrArg _ (hdword 1)).trans (Word.setWidth_dword _)
  have htags : (imageDword f.saveImage 2).setWidth 16 = f.tags :=
    (congrArg _ (hdword 2)).trans (Word.setWidth_dword _)
  have hipOffset : imageDword f.saveImage 3 = f.ipOffset := hdword 3
  have hipSelector : (imageDword f.saveImage 4).setWidth 16 = f.ipSelector :=
    (congrArg _ (hdword 4)).trans (packed_selector _ _)
  have hopcode : (imageDword f.saveImage 4).extractLsb' 16 16 &&& 0x7FF = f.opcode :=
    (congrArg (fun d => BitVec.extractLsb' 16 16 d &&& 0x7FF) (hdword 4)).trans
      (packed_opcode _ h.opcode_le)
  have hdpOffset : imageDword f.saveImage 5 = f.dpOffset := hdword 5
  have hdpSelector : (imageDword f.saveImage 6).setWidth 16 = f.dpSelector :=
    (congrArg _ (hdword 6)).trans (Word.setWidth_dword _)
  calc loadImage f.saveImage
    _ = (f.setStatusWord f.statusWord).summarize := by
      unfold loadImage
      rw [hregs, hcontrol, hstatus, htags, hipOffset, hipSelector, hopcode, hdpOffset,
        hdpSelector]
      rfl
    _ = f := by rw [setStatusWord_statusWord h.intact, h.summarize_eq]

end Fpu

/-! ## The instruction and its operand -/

/-- An instruction of the unit with an operand in memory. -/
structure FloatAccess where
  /-- The markers before it. -/
  markers : Prefixes
  /-- The instruction. -/
  instruction : FloatInstruction
  /-- The segment of the operand. -/
  seg : Seg
  /-- The offset of the operand. -/
  offset : Dword
deriving DecidableEq, Repr

variable {H : Type} [Host H] {m m₁ m₂ m₃ : Machine H} {p : Prefixes} {A : Dword → Prop}

/-- Takes an instruction of the unit from the code, with its operand in memory.  The answer is
none for another instruction. -/
def Exec.fetchFloatAccess : Exec H (Option FloatAccess) := do
  match ← fetchInstruction with
  | some ⟨p, .ok (.escape number)⟩ =>
    let mode := ModeByte.ofByte (← fetch8)
    match FloatInstruction.decode number mode with
    | .ok instruction =>
      let (seg, offset) ← memoryOperand p mode
      return some ⟨p, instruction, seg, offset⟩
    | .error _ => return none
  | _ => return none

/-- The instruction of the unit at the instruction pointer, with its operand in memory. -/
def Machine.floatAccess? (m : Machine H) : Option FloatAccess := (value? fetchFloatAccess m).join

/-- A machine takes an instruction of the unit from the code, up to the byte after the opcode,
and then finds the operand. -/
structure Machine.Accesses (m : Machine H) (access : FloatAccess) (number : BitVec 3) (b : Byte)
    (m₁ m₂ m₃ : Machine H) : Prop where
  fetches : m.Fetches access.markers (.escape number) m₁
  byte : fetch8.run m₁ = .ok b m₂
  decodes : FloatInstruction.decode number (.ofByte b) = .ok access.instruction
  operand : (memoryOperand access.markers (.ofByte b)).run m₂ = .ok (access.seg, access.offset) m₃
  moved : ∃ eip log, m₂ = { m with eip := eip, log := log }
  moved' : ∃ eip log, m₃ = { m with eip := eip, log := log }

theorem Exec.moved_of_memoryOperand {mode : ModeByte} {place : Seg × Dword}
    (hr : (memoryOperand p mode).run m = .ok place m₁) :
    ∃ eip log, m₁ = { m with eip := eip, log := log } := by
  rw [memoryOperand, run_bind_eq_ok_iff] at hr
  obtain ⟨found, m', hoperand, hplace⟩ := hr
  have hsame : m' = m₁ := by
    cases found with
    | register r => cases hplace
    | memory seg offset => cases hplace; rfl
  exact hsame ▸ (operand_hasEffect p mode).moved rfl hoperand

theorem Machine.exists_accesses {access : FloatAccess} (h : m.floatAccess? = some access) :
    ∃ number b m₁ m₂ m₃, m.Accesses access number b m₁ m₂ m₃ := by
  obtain ⟨m', hrun⟩ := value?_eq_some_iff.1 (Option.join_eq_some_iff.1 h)
  rw [fetchFloatAccess, run_bind_eq_ok_iff] at hrun
  obtain ⟨decoded, m₁, hfetch, hrun⟩ := hrun
  obtain ⟨eip, log, rfl⟩ := (fetchInstruction_moves m).of_ok hfetch
  split at hrun
  next p number =>
    rw [run_bind_eq_ok_iff] at hrun
    obtain ⟨b, m₂, hbyte, hrun⟩ := hrun
    obtain ⟨eip', log', rfl⟩ := fetch8_hasEffect.moved rfl hbyte
    dsimp only at hrun
    split at hrun
    next i hdecode =>
      rw [run_bind_eq_ok_iff] at hrun
      obtain ⟨⟨seg, offset⟩, m₃, hoperand, hrun⟩ := hrun
      obtain ⟨eip'', log'', rfl⟩ := moved_of_memoryOperand hoperand
      cases hrun
      exact ⟨number, b, _, _, _, ⟨hfetch, _, _, rfl⟩, hbyte, hdecode, hoperand, ⟨_, _, rfl⟩, _, _,
        rfl⟩
    next => cases hrun
  next => cases hrun

/-- A step whose instruction controls the unit and succeeds is completed. -/
theorem Machine.Accesses.step {access : FloatAccess} {number : BitVec 3} {b : Byte}
    {m' : Machine H} (h : m.Accesses access number b m₁ m₂ m₃)
    (hc : access.instruction.isControl = true)
    (hr : (runFloat access.markers (.ofByte b) access.instruction).run m₂ = .ok () m') :
    m.step = (.completed, { m' with retired := m'.retired + 1 }) := by
  have hescape : (escape access.markers number).run m₁ = .ok () m' := by
    rw [escape, run_bind_of_ok h.byte]
    dsimp only
    rw [h.decodes]
    dsimp only
    rw [run_bind_of_ok hr, hc]
    rfl
  exact step_of_run h.fetches hescape

/-! ## Running -/

namespace Exec

variable {mode : ModeByte} {seg : Seg} {offset : Dword}

omit [Host H] in
theorem checkAvailable_run (hl : p.lock = false)
    (hc : m.cr0 &&& (Control.emulation ||| Control.taskSwitched) = 0) :
    (checkAvailable p).run m = .ok () m := by
  have hlock : (checkLock p : Exec H Unit).run m = .ok () m := by
    rw [checkLock, hl]
    rfl
  rw [checkAvailable, run_bind_of_ok hlock, run_view_bind, hc]
  rfl

omit [Host H] in
/-- When nothing is pending the check clears condition one. -/
theorem checkReady_run (hl : p.lock = false)
    (hc : m.cr0 &&& (Control.emulation ||| Control.taskSwitched) = 0)
    (hp : m.fpu.isPending = false) :
    (checkReady p).run m = .ok () { m with fpu := m.fpu.setCondition Status.c1 false } := by
  rw [checkReady, run_bind_of_ok (checkAvailable_run hl hc), run_view_bind, hp]
  rfl

omit [Host H] in
/-- When condition one is clear too, the check changes nothing. -/
theorem checkReady_run_of_status_zero (hl : p.lock = false)
    (hc : m.cr0 &&& (Control.emulation ||| Control.taskSwitched) = 0) (hs : m.fpu.status = 0) :
    (checkReady p).run m = .ok () m := by
  have hpending : m.fpu.isPending = false := by
    rw [Fpu.isPending, hs]
    rfl
  have hsame : m.fpu.setCondition Status.c1 false = m.fpu := by
    have hclear : m.fpu.status &&& ~~~Status.c1 = m.fpu.status := by rw [hs]; rfl
    exact congrArg (fun status => { m.fpu with status := status }) hclear
  rw [checkReady_run hl hc hpending, hsame]

omit [Host H] in
theorem checkLayout_run {feature : Feature} (hu : m.usesDescriptors = true)
    (hw : p.operand32 m.toProcessor = true) : (checkLayout p feature).run m = .ok () m := by
  rw [checkLayout, run_view_bind, hu, hw]
  rfl

/-- Saving writes the image and initializes the unit. -/
theorem saveState_run (ho : (memoryOperand p mode).run m = .ok (seg, offset) m₁)
    (hl : p.lock = false) (hc : m.cr0 &&& (Control.emulation ||| Control.taskSwitched) = 0)
    (hu : m₁.usesDescriptors = true) (hw : p.operand32 m₁.toProcessor = true)
    (hg : (m₁.segs.get seg).Grants m₁.toProcessor .write offset Fpu.imageSize)
    (hb : Backs A m₁.host) (hin : Within A ((m₁.segs.get seg).base + offset) Fpu.imageSize) :
    (saveState p mode).run m = .ok ()
      { m₁ with
        host := storeAll m₁.host ((m₁.segs.get seg).base + offset) m₁.fpu.saveImage
        fpu := { m₁.fpu.reinitialize with opcode := m₁.fpu.opcode } } := by
  rw [← m₁.fpu.length_saveImage] at hg hin
  rw [saveState, run_bind_of_ok (checkAvailable_run hl hc), run_bind_of_ok ho]
  dsimp only
  rw [run_bind_of_ok (checkLayout_run hu hw), run_view_bind,
    run_bind_of_ok (storeBytes_backed hg hb hin)]
  rfl

/-- Restoring loads the image. -/
theorem restoreState_run (ho : (memoryOperand p mode).run m = .ok (seg, offset) m₁)
    (hl : p.lock = false) (hc : m.cr0 &&& (Control.emulation ||| Control.taskSwitched) = 0)
    (hs : m.fpu.status = 0)
    (hu : m₁.usesDescriptors = true) (hw : p.operand32 m₁.toProcessor = true)
    (hg : (m₁.segs.get seg).Grants m₁.toProcessor .read offset Fpu.imageSize) {image : List Byte}
    (hr : hostBytes m₁.host ((m₁.segs.get seg).base + offset) Fpu.imageSize = .ok image) :
    (restoreState p mode).run m = .ok () { m₁ with fpu := Fpu.loadImage image } := by
  rw [restoreState, run_bind_of_ok (checkReady_run_of_status_zero hl hc hs), run_bind_of_ok ho]
  dsimp only
  rw [run_bind_of_ok (checkLayout_run hu hw), run_bind_of_ok (loadBytes_of_grants hg hr)]
  rfl

end Exec

/-! ## Saving and restoring -/

variable {p' : Prefixes} {seg : Seg} {offset : Dword}

theorem Machine.step_save (ha : m.floatAccess? = some ⟨p, .save, seg, offset⟩)
    (hl : p.lock = false) (hw : p.operand32 m.toProcessor = true) (hu : m.usesDescriptors = true)
    (hc : m.cr0 &&& (Control.emulation ||| Control.taskSwitched) = 0)
    (hg : (m.segs.get seg).Grants m.toProcessor .write offset Fpu.imageSize)
    (hb : Backs A m.host) (hin : Within A ((m.segs.get seg).base + offset) Fpu.imageSize) :
    ∃ eip log retired, m.step = (.completed,
      { m with
        eip := eip
        log := log
        retired := retired
        host := storeAll m.host ((m.segs.get seg).base + offset) m.fpu.saveImage
        fpu := { Fpu.initial with regs := m.fpu.regs, opcode := m.fpu.opcode } }) := by
  obtain ⟨number, b, m₁, m₂, m₃, h⟩ := exists_accesses ha
  obtain ⟨eip, log, rfl⟩ := h.moved
  obtain ⟨eip', log', rfl⟩ := h.moved'
  have hrun := saveState_run h.operand hl hc hu hw ⟨hg.rights, hg.bounds⟩ hb hin
  exact ⟨_, _, _, h.step rfl hrun⟩

theorem Machine.step_restore (ha : m.floatAccess? = some ⟨p, .restore, seg, offset⟩)
    (hl : p.lock = false) (hw : p.operand32 m.toProcessor = true) (hu : m.usesDescriptors = true)
    (hc : m.cr0 &&& (Control.emulation ||| Control.taskSwitched) = 0) (hs : m.fpu.status = 0)
    (hg : (m.segs.get seg).Grants m.toProcessor .read offset Fpu.imageSize) {image : List Byte}
    (hr : hostBytes m.host ((m.segs.get seg).base + offset) Fpu.imageSize = .ok image) :
    m.step.1 = .completed ∧ m.step.2.fpu = Fpu.loadImage image := by
  obtain ⟨number, b, m₁, m₂, m₃, h⟩ := exists_accesses ha
  obtain ⟨eip, log, rfl⟩ := h.moved
  obtain ⟨eip', log', rfl⟩ := h.moved'
  have hrun := restoreState_run h.operand hl hc hs hu hw ⟨hg.rights, hg.bounds⟩ hr
  rw [h.step rfl hrun]
  exact ⟨rfl, rfl⟩

/-- Saving the state initializes the unit but for its registers and the opcode, and restoring it
from the same place makes the unit what it was. -/
theorem Machine.restore_save (m : Machine H) (hfpu : m.fpu.WellFormed)
    (hu : m.usesDescriptors = true)
    (hc : m.cr0 &&& (Control.emulation ||| Control.taskSwitched) = 0)
    (ha : m.floatAccess? = some ⟨p, .save, seg, offset⟩)
    (hl : p.lock = false) (hw : p.operand32 m.toProcessor = true)
    (hwrite : (m.segs.get seg).Grants m.toProcessor .write offset Fpu.imageSize)
    (hread : (m.segs.get seg).Grants m.toProcessor .read offset Fpu.imageSize)
    (hb : Backs A m.host) (hin : Within A ((m.segs.get seg).base + offset) Fpu.imageSize) :
    m.step.1 = .completed ∧
      m.step.2.fpu = { Fpu.initial with regs := m.fpu.regs, opcode := m.fpu.opcode } ∧
      ∀ p', m.step.2.floatAccess? = some ⟨p', .restore, seg, offset⟩ → p'.lock = false →
        p'.operand32 m.step.2.toProcessor = true →
        m.step.2.step.1 = .completed ∧ m.step.2.step.2.fpu = m.fpu := by
  obtain ⟨eip, log, retired, hstep⟩ := step_save ha hl hw hu hc hwrite hb hin
  rw [hstep]
  refine ⟨rfl, rfl, fun p' ha' hl' hw' => ?_⟩
  have hlen : m.fpu.saveImage.length = Fpu.imageSize := m.fpu.length_saveImage
  have himage : hostBytes (storeAll m.host ((m.segs.get seg).base + offset) m.fpu.saveImage)
      ((m.segs.get seg).base + offset) Fpu.imageSize = .ok m.fpu.saveImage := by
    rw [← hlen] at hin ⊢
    exact hostBytes_storeAll hb hin (by rw [hlen]; decide)
  have hrestored := step_restore ha' hl' hw' hu hc rfl ⟨hread.rights, hread.bounds⟩ himage
  rw [Fpu.loadImage_saveImage hfpu] at hrestored
  exact hrestored

/-- A machine before a save and a restore at offset `10`.  An exception is pending, and a register
holds an encoding that denotes nothing. -/
def Machine.savingPending : Machine Ram :=
  let bytes := #[0xDD, 0x35, 0x10, 0x00, 0x00, 0x00, 0xDD, 0x25, 0x10, 0x00, 0x00, 0x00]
    ++ Array.replicate 0x70 0
  let m := Machine.initial ⟨⟨bytes⟩, none, 0, #[]⟩ {}
  { m with
    eip := 0
    cr0 := Control.protection
    segs := { Segments.initial with
      cs := .ofDescriptor 0x08 ⟨0x0000FFFF, 0x00CF9A00⟩
      ds := .ofDescriptor 0x10 ⟨0x0000FFFF, 0x00CF9200⟩ }
    fpu := {
      regs := Fpu.initial.regs.set 5 ⟨true, 0x4000, 1⟩
      control := 0x037B
      status := 0xC284
      top := 5
      tags := 0xF3FF
      ipOffset := 0x12345678
      ipSelector := 0x08
      opcode := 0x6F9
      dpOffset := 0x9ABCDEF0
      dpSelector := 0x10 } }

/-- The pending exception is lost by the save and comes back by the restore. -/
theorem Machine.restore_savingPending :
    savingPending.fpu.isPending = true ∧ savingPending.step.2.fpu.isPending = false ∧
      savingPending.step.2.step.2.fpu = savingPending.fpu := by
  have hfpu : savingPending.fpu.WellFormed :=
    ⟨by decide, by decide, by decide, by decide, by decide, by decide⟩
  have hin : Within (fun a => a.toNat < savingPending.host.bytes.size)
      ((savingPending.segs.get .ds).base + 0x10) Fpu.imageSize := by
    unfold Within
    decide +kernel
  have haccess : savingPending.floatAccess? = some ⟨{ start := 0 }, .save, .ds, 0x10⟩ := by
    decide +kernel
  obtain ⟨-, hsaved, hrestored⟩ := restore_save savingPending hfpu (by decide) (by decide) haccess
    rfl rfl ⟨by decide, by decide⟩ ⟨by decide, by decide⟩ (Ram.backs rfl) hin
  refine ⟨by decide, ?_, ?_⟩
  · rw [hsaved]
    decide
  · exact (hrestored { start := 6 } (by decide +kernel) rfl (by decide +kernel)).2

end Ia32
