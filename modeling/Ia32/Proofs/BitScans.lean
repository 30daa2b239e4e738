import Mathlib.Order.Bounds.Basic
import Ia32.Proofs.BackedMemory
import Ia32.Proofs.InstructionParts
import Ia32.Proofs.IntegerStarts

/-!
# Bit scans

A bit scan looks the bytes of its operand up in a table, from one end to the other,
until an entry is not eight.  Such an entry is the place of the least or the greatest
one of its byte, and all bytes before it are zero.  So the scan finds the least or the
greatest of all ones of the operand.  The instruction writes its number to a register.
Without a one it changes nothing but the zero flag.
-/

namespace Ia32

open Host Exec

/-! ## Ones -/

/-- The places of the ones of a byte. -/
def Byte.ones (b : Byte) : Set Nat := {i | b.getLsbD i = true}

/-- The places of the ones of a value inside the width. -/
def Width.ones (w : Width) (value : Dword) : Set Nat := {i | i < w.bits ∧ value.getLsbD i = true}

/-- The places of the ones of a value in some of its bytes. -/
def onesIn (bytes : List Nat) (value : Dword) : Set Nat :=
  {i | i / 8 ∈ bytes ∧ value.getLsbD i = true}

variable {value : Dword} {k i j : Nat} {bytes : List Nat}

theorem mem_ones_byte :
    i ∈ Byte.ones ((value >>> (8 * k)).setWidth 8) ↔ i < 8 ∧ value.getLsbD (8 * k + i) = true := by
  simp only [Byte.ones, Set.mem_ofPred_eq, BitVec.getLsbD_setWidth, BitVec.getLsbD_ushiftRight,
    Bool.and_eq_true, decide_eq_true_eq]

/-- A one of a value is in the first of some bytes or in the rest. -/
theorem mem_onesIn_cons : i ∈ onesIn (k :: bytes) value ↔
    (i / 8 = k ∧ i % 8 ∈ Byte.ones ((value >>> (8 * k)).setWidth 8)) ∨ i ∈ onesIn bytes value := by
  have hplace (h : i / 8 = k) : 8 * k + i % 8 = i := by omega
  have hlt : i % 8 < 8 := Nat.mod_lt _ (by decide)
  rw [mem_ones_byte]
  constructor
  · rintro ⟨hin, hone⟩
    obtain h | h := List.mem_cons.1 hin
    · exact .inl ⟨h, hlt, by rwa [hplace h]⟩
    · exact .inr ⟨h, hone⟩
  · rintro (⟨h, -, hone⟩ | ⟨h, hone⟩)
    · rw [hplace h] at hone
      exact ⟨List.mem_cons.2 (.inl h), hone⟩
    · exact ⟨List.mem_cons_of_mem k h, hone⟩

/-- All bytes of a width hold the ones inside the width. -/
theorem onesIn_eq {w : Width} (h : ∀ k, k ∈ bytes ↔ k < w.bytes) :
    onesIn bytes value = w.ones value := by
  ext i
  refine and_congr_left fun _ => (h _).trans ?_
  cases w <;> simp only [Width.bytes, Width.bits] <;> omega

theorem Width.nonempty_ones {w : Width} (h : w.truncate value ≠ 0) : (w.ones value).Nonempty := by
  rw [Set.nonempty_iff_ne_empty]
  intro hempty
  refine h (BitVec.eq_of_getLsbD_eq fun i _ => ?_)
  refine (Bool.eq_false_iff.2 fun hone => ?_).trans BitVec.getLsbD_zero.symm
  rw [Width.getLsbD_truncate, Bool.and_eq_true, decide_eq_true_eq] at hone
  exact Set.eq_empty_iff_forall_notMem.1 hempty i hone

/-! ## Orders -/

namespace ScanOrder

/-- A place comes before another one. -/
def Before (order : ScanOrder) (i j : Nat) : Prop :=
  match order with
  | .forward => i < j
  | .reverse => j < i

/-- The place that a scan of a set meets first. -/
def IsFirst (order : ScanOrder) (s : Set Nat) (i : Nat) : Prop :=
  match order with
  | .forward => IsLeast s i
  | .reverse => IsGreatest s i

variable {order : ScanOrder} {s : Set Nat}

theorem isFirst_iff : order.IsFirst s i ↔ i ∈ s ∧ ∀ j ∈ s, i = j ∨ order.Before i j := by
  cases order with
  | forward => exact and_congr_right fun _ => forall₂_congr fun j _ => le_iff_eq_or_lt
  | reverse =>
    exact and_congr_right fun _ => forall₂_congr fun j _ =>
      le_iff_eq_or_lt.trans (or_congr_left eq_comm)

/-- The bytes decide first which place comes before. -/
theorem Before.of_byte (h : order.Before k (j / 8)) (hi : i < 8) : order.Before (8 * k + i) j := by
  cases order <;> simp only [Before] at h ⊢ <;> omega

theorem Before.of_bit (h : order.Before i (j % 8)) : order.Before (8 * (j / 8) + i) j := by
  cases order <;> simp only [Before] at h ⊢ <;> omega

/-- The entries of a table are the first ones of the bytes, and the one for zero is eight. -/
structure IsTable (order : ScanOrder) (table : Byte → Nat) : Prop where
  zero : table 0 = 8
  first : ∀ b : Byte, b ≠ 0 → order.IsFirst b.ones (table b)

theorem isTable_lowestOne : forward.IsTable Byte.lowestOne := by
  refine ⟨rfl, fun b h => ?_⟩
  rw [Byte.lowestOne, if_neg h]
  refine ⟨BitVec.getLsbD_true_ctz_of_ne_zero h, fun i hi => Nat.le_of_not_lt fun hlt => ?_⟩
  exact Bool.false_ne_true ((BitVec.getLsbD_false_of_lt_ctz hlt).symm.trans hi)

theorem isTable_highestOne : reverse.IsTable Byte.highestOne := by
  refine ⟨rfl, fun b h => ?_⟩
  rw [Byte.highestOne, if_neg h]
  have hone : b.getLsbD (7 - b.clz.toNat) = true :=
    BitVec.getLsbD_true_clz_of_ne_zero (by decide) h
  refine ⟨hone, fun i hi => Nat.le_of_not_lt fun hlt => ?_⟩
  have hvalue : b.toNat < 2 ^ i :=
    Nat.lt_of_lt_of_le BitVec.toNat_lt_two_pow_sub_clz (Nat.pow_le_pow_right (by decide) (by omega))
  exact Bool.false_ne_true ((Nat.testBit_lt_two_pow hvalue).symm.trans hi)

end ScanOrder

/-! ## Scans -/

/-- A scan of bytes in their order finds the first of their ones. -/
theorem isFirst_scanBytes {order : ScanOrder} {table : Byte → Nat} (htable : order.IsTable table)
    (hbytes : bytes.Pairwise order.Before) (hones : (onesIn bytes value).Nonempty) :
    order.IsFirst (onesIn bytes value) (scanBytes table value bytes) := by
  induction bytes with
  | nil =>
    obtain ⟨i, hi, -⟩ := hones
    cases hi
  | cons k ks ih =>
    obtain ⟨hbefore, hks⟩ := List.pairwise_cons.1 hbytes
    rw [scanBytes]
    by_cases hzero : (value >>> (8 * k)).setWidth 8 = (0 : Byte)
    · -- A byte without a one is passed over.
      have hnone : onesIn (k :: ks) value = onesIn ks value := by
        ext i
        rw [mem_onesIn_cons, hzero]
        exact or_iff_right fun h => Bool.false_ne_true (BitVec.getLsbD_zero.symm.trans h.2)
      rw [hnone] at hones ⊢
      rw [hzero, htable.zero]
      exact ih hks hones
    · obtain ⟨hone, hfirst⟩ := ScanOrder.isFirst_iff.1 (htable.first _ hzero)
      obtain ⟨hlt, hvalue⟩ := mem_ones_byte.1 hone
      generalize table _ = index at hone hfirst hlt hvalue
      rw [if_pos hlt.ne]
      refine ScanOrder.isFirst_iff.2 ⟨⟨?_, hvalue⟩, fun j hj => ?_⟩
      · rw [Nat.mul_add_div (by decide), Nat.div_eq_of_lt hlt]
        exact List.mem_cons_self
      · obtain ⟨rfl, hj⟩ | ⟨hj, -⟩ := mem_onesIn_cons.1 hj
        · obtain rfl | hj := hfirst _ hj
          · exact .inl (Nat.div_add_mod j 8)
          · exact .inr hj.of_bit
        · exact .inr ((hbefore _ hj).of_byte hlt)

/-- A scan of a value that is not zero finds the first of its ones. -/
theorem isFirst_scan {w : Width} (h : w.truncate value ≠ 0) (order : ScanOrder) :
    order.IsFirst (w.ones value) (scan w order value) := by
  have hones := Width.nonempty_ones h
  have hup (k : Nat) : k ∈ List.range w.bytes ↔ k < w.bytes := List.mem_range
  have hdown (k : Nat) : k ∈ (List.range w.bytes).reverse ↔ k < w.bytes :=
    List.mem_reverse.trans (hup k)
  cases order with
  | forward =>
    rw [← onesIn_eq hup] at hones ⊢
    exact isFirst_scanBytes ScanOrder.isTable_lowestOne List.pairwise_lt_range hones
  | reverse =>
    rw [← onesIn_eq hdown] at hones ⊢
    exact isFirst_scanBytes ScanOrder.isTable_highestOne
      (List.pairwise_reverse.2 List.pairwise_lt_range) hones

theorem scan_lt {w : Width} (h : w.truncate value ≠ 0) (order : ScanOrder) :
    scan w order value < w.bits :=
  (ScanOrder.isFirst_iff.1 (isFirst_scan h order)).1.1

/-! ## Operands -/

variable {H : Type} [Host H] {m : Machine H} {w : Width} {place : Operand}

/-- An operand can be read, and it has the value. -/
def Machine.HasOperand (m : Machine H) (w : Width) (place : Operand) (value : Dword) : Prop :=
  match place with
  | .register r => m.reg w r = value
  | .memory seg offset =>
    (m.segs.get seg).Grants m.toProcessor .read offset w.bytes ∧
      ∃ bytes, hostBytes m.host ((m.segs.get seg).base + offset) w.bytes = .ok bytes ∧
        BitVec.ofNat 32 (littleEndian bytes) = value

theorem Machine.value?_readOperand_eq_some_iff :
    value? (readOperand w place) m = some value ↔ m.HasOperand w place value := by
  cases place with
  | register r => exact Option.some_inj
  | memory seg offset => exact value?_load_eq_some_iff

/-- The next instruction makes no difference to what can be read. -/
theorem Machine.hasOperand_moved {next : Dword} {log : Log} :
    { m with eip := next, log := log }.HasOperand w place value ↔ m.HasOperand w place value := by
  cases place with
  | register r => exact Iff.rfl
  | memory seg offset =>
    constructor
    · rintro ⟨hg, hbytes⟩
      exact ⟨⟨hg.rights, hg.bounds⟩, hbytes⟩
    · rintro ⟨hg, hbytes⟩
      exact ⟨⟨hg.rights, hg.bounds⟩, hbytes⟩

/-! ## Instructions -/

/-- A bit scan with its operands. -/
structure BitScan where
  /-- The end at which the scan starts. -/
  order : ScanOrder
  /-- The width. -/
  width : Width
  /-- The register for the number of the bit. -/
  register : Reg
  /-- The operand that is scanned. -/
  place : Operand
deriving DecidableEq, Repr

namespace Exec

/-- Takes the operands of a bit scan from the code.  The answer is none for another instruction. -/
def fetchScan (p : Prefixes) : Instruction → Exec H (Option BitScan)
  | .bitScan order => do
    let w ← operandWidth p
    let (mode, place) ← fetchOperand p
    checkLock p
    checkRepeatedScan p order
    return some ⟨order, w, mode.firstRegister, place⟩
  | _ => return none

/-- Runs a bit scan whose operands are known. -/
def runScan (b : BitScan) : Exec H Unit := do
  match scan? b.width b.order (← readOperand b.width b.place) with
  | some index =>
    update fun s =>
      (s.setFlag Flags.zero false).setReg b.width b.register (BitVec.ofNat 32 index)
  | none => update (·.setFlag Flags.zero true)

theorem fetchScan_hasEffect (p : Prefixes) (i : Instruction) :
    HasEffect .checks (fetchScan p i : Exec H (Option BitScan)) := by
  cases i with
  | bitScan order =>
    refine .skip (.view _) fun w => .andThen (fetchOperand_hasEffect p) fun found => ?_
    refine .andThen (checkLock_hasEffect p) fun _ => ?_
    exact (checkRepeatedScan_hasEffect p order).map _
  | _ => exact .pure _

/-- A bit scan runs as one, once its operands are taken from the code. -/
theorem runInstruction_of_scan {p : Prefixes} {i : Instruction} {m m₁ : Machine H} {b : BitScan}
    (h : (fetchScan p i).run m = .ok (some b) m₁) :
    (runInstruction p i).run m = (runScan b).run m₁ := by
  cases i with
  | bitScan order =>
    rw [fetchScan, operandWidth, run_view_bind] at h
    obtain ⟨⟨mode, place⟩, m', hplace, h⟩ := run_bind_eq_ok_iff.1 h
    obtain ⟨_, m'', hlock, h⟩ := run_bind_eq_ok_iff.1 h
    obtain ⟨_, m''', hrepeated, hdone⟩ := run_bind_eq_ok_iff.1 h
    cases hdone
    rw [runInstruction, operandWidth, run_view_bind, bitScan, run_bind_of_ok hplace]
    dsimp only
    rw [run_bind_of_ok hlock, run_bind_of_ok hrepeated]
    rfl
  | _ => cases h

/-- Bit scans in two parts. -/
def bitScans : Parts H BitScan where
  take := fetchScan
  run := runScan
  take_hasEffect := fetchScan_hasEffect
  run_eq := runInstruction_of_scan

/-- What a scan makes of a machine. -/
theorem runScan_run {b : BitScan} (h : m.HasOperand b.width b.place value) :
    (runScan b).run m = .ok ()
      (match scan? b.width b.order value with
      | some i =>
        { m with toProcessor :=
            (m.setFlag Flags.zero false).setReg b.width b.register (BitVec.ofNat 32 i) }
      | none => { m with toProcessor := m.setFlag Flags.zero true }) := by
  have hread := (readOperand_observes b.width b.place).run_of_value
    (Machine.value?_readOperand_eq_some_iff.2 h)
  rw [runScan, run_bind_of_ok hread]
  cases scan? b.width b.order value <;> rfl

/-- A scan that succeeds has read its operand. -/
theorem exists_hasOperand {b : BitScan} {m' : Machine H} (h : (runScan b).run m = .ok () m') :
    ∃ value, m.HasOperand b.width b.place value := by
  obtain ⟨value, m₁, hread, -⟩ := run_bind_eq_ok_iff.1 h
  exact ⟨value, Machine.value?_readOperand_eq_some_iff.1 (value?_of_ok hread)⟩

end Exec

theorem Machine.HasOperand.truncate_eq (h : m.HasOperand w place value) :
    w.truncate value = value :=
  truncate_of_readOperand
    ((readOperand_observes w place).run_of_value (value?_readOperand_eq_some_iff.2 h))

/-- The bit scan at the instruction pointer, and the offset of the next instruction. -/
def Machine.bitScan? (m : Machine H) : Option (Taken BitScan) := m.taken? bitScans

/-- A bit scan that is completed has taken its operands from the code. -/
theorem Machine.exists_bitScan? {p : Prefixes} {order : ScanOrder}
    (hi : m.instruction? = some (p, .bitScan order)) (hs : m.step.1 = .completed) :
    ∃ t, m.bitScan? = some t ∧ t.part.order = order := by
  obtain ⟨m₁, m₂, hf, hr, -⟩ := exists_run_of_completed hi hs
  rw [runInstruction, operandWidth, run_view_bind, bitScan] at hr
  obtain ⟨⟨mode, place⟩, m₃, hplace, hr⟩ := run_bind_eq_ok_iff.1 hr
  obtain ⟨_, m₄, hlock, hr⟩ := run_bind_eq_ok_iff.1 hr
  obtain ⟨_, m₅, hrepeated, -⟩ := run_bind_eq_ok_iff.1 hr
  have htake : (fetchScan p (.bitScan order)).run m₁
      = .ok (some ⟨order, p.operandWidth m₁.toProcessor, mode.firstRegister, place⟩) m₅ := by
    rw [fetchScan, operandWidth, run_view_bind, run_bind_of_ok hplace]
    dsimp only
    rw [run_bind_of_ok hlock, run_bind_of_ok hrepeated]
    rfl
  exact ⟨_, taken?_of_run hf htake, rfl⟩

/-- A scan of a value that is not zero finds the least or the greatest of its ones.  A bit scan is
completed just when its operand can be read.  It writes the number of the first one to its register
and clears the zero flag, or it sets the zero flag when the operand is zero, and it changes nothing
else. -/
theorem Machine.bitScan_step (m : Machine H) {b : BitScan} {next : Dword}
    (h : m.bitScan? = some ⟨b, next⟩) :
    (∀ w order value, Width.truncate w value ≠ 0 →
      scan w order value < w.bits ∧ order.IsFirst (w.ones value) (scan w order value)) ∧
    (m.step.1 = .completed ↔ ∃ value, m.HasOperand b.width b.place value) ∧
    ∀ value, m.HasOperand b.width b.place value →
      m.step.2.host = m.host ∧
      (value = 0 →
        m.step.2.toProcessor = { m.setFlag Flags.zero true with eip := next }) ∧
      (value ≠ 0 → ∃ i < b.width.bits, b.order.IsFirst (b.width.ones value) i ∧
        m.step.2.toProcessor = { (m.setFlag Flags.zero false).setReg b.width b.register
          (BitVec.ofNat 32 i) with eip := next }) := by
  obtain ⟨m₁, htakes⟩ := exists_takes h
  obtain ⟨log, rfl⟩ := htakes.moved
  refine ⟨fun w order value hv => ⟨scan_lt hv order, isFirst_scan hv order⟩, ⟨fun hs => ?_, ?_⟩,
    fun value hv => ?_⟩
  · obtain ⟨m', hr, -⟩ := htakes.exists_of_completed hs
    obtain ⟨value, hv⟩ := exists_hasOperand hr
    exact ⟨value, hasOperand_moved.1 hv⟩
  · rintro ⟨value, hv⟩
    rw [htakes.completes (runScan_run (hasOperand_moved.2 hv))]
  · rw [htakes.completes (runScan_run (hasOperand_moved.2 hv))]
    by_cases hzero : value = 0
    · have hscan : scan? b.width b.order value = none := if_pos hzero
      rw [hscan]
      exact ⟨rfl, fun _ => rfl, fun hne => absurd hzero hne⟩
    · have hscan : scan? b.width b.order value = some (scan b.width b.order value) := if_neg hzero
      have hwidth : b.width.truncate value ≠ 0 := hv.truncate_eq.symm ▸ hzero
      rw [hscan]
      exact ⟨rfl, fun h0 => absurd h0 hzero,
        fun _ => ⟨_, scan_lt hwidth _, isFirst_scan hwidth _, rfl⟩⟩

/-- A machine before it scans a register from the lowest bit on. -/
def Machine.scanningRegister : Machine Ram :=
  let m := Machine.initial ⟨⟨#[0x0F, 0xBC, 0xC3, 0, 0, 0, 0, 0]⟩, none, 0, #[]⟩ {}
  { m with
    regs := (m.setReg .word Reg.ebx 0x0A00).regs
    eip := 0
    segs := { Segments.initial with cs := .realMode 0 false } }

/-- Bit nine is the lowest one. -/
theorem Machine.bitScan_step_scanningRegister :
    scanningRegister.step.1 = .completed ∧ IsLeast (Width.word.ones 0x0A00) 9 ∧
      scanningRegister.step.2.reg .word Reg.eax = 9 := by
  have hstart : scanningRegister.bitScan?
      = some ⟨⟨.forward, .word, Reg.eax, .register Reg.ebx⟩, 3⟩ := by decide +kernel
  have hvalue : scanningRegister.HasOperand .word (.register Reg.ebx) 0x0A00 := by
    have hreg : scanningRegister.reg .word Reg.ebx = 0x0A00 := by decide +kernel
    exact hreg
  have hsteps := bitScan_step scanningRegister hstart
  obtain ⟨-, hfirst⟩ := hsteps.1 .word .forward 0x0A00 (by decide)
  have hnine : scan .word .forward 0x0A00 = 9 := by decide
  rw [hnine] at hfirst
  obtain ⟨-, -, hone⟩ := hsteps.2.2 _ hvalue
  obtain ⟨j, -, hj, hstep⟩ := hone (by decide)
  obtain rfl : 9 = j := hfirst.unique hj
  refine ⟨hsteps.2.1.2 ⟨_, hvalue⟩, hfirst, ?_⟩
  have hreg := congrArg (·.reg .word Reg.eax) hstep
  exact hreg.trans (by decide +kernel)

end Ia32
