import Ia32.Proofs.BackedMemory
import Ia32.Proofs.BitInstructions
import Ia32.Proofs.StackValues

/-!
# Memory as a string of bits

Bit `n` of the string at an offset is bit `n % 8` of the byte at distance `n / 8`,
rounded down, so that negative numbers reach below the offset.  A bit instruction
reads and writes a unit of its width.  In the order of bytes in memory this unit
holds the bit at the same place in the string, and of all memory the instruction
changes this bit alone.
-/

namespace Ia32

open Host Exec

/-! ## Bits of values and of bytes -/

/-- A bit of the number that some bytes stand for. -/
theorem testBit_littleEndian (bytes : List Byte) {i j : Nat} (hi : i < bytes.length) (hj : j < 8) :
    (littleEndian bytes).testBit (8 * i + j) = bytes[i].getLsbD j := by
  have hcons (b : Byte) (rest : Nat) : b.toNat + 256 * rest = 2 ^ 8 * rest + b.toNat := by omega
  induction bytes generalizing i with
  | nil => cases hi
  | cons b bs ih =>
    rw [littleEndian, hcons, Nat.testBit_two_pow_mul_add _ b.isLt]
    cases i with
    | zero =>
      rw [Nat.mul_zero, Nat.zero_add, if_pos hj]
      rfl
    | succ i =>
      have hlt : i < bs.length := Nat.lt_of_succ_lt_succ hi
      have hsub : 8 * (i + 1) + j - 8 = 8 * i + j := by omega
      rw [if_neg (by omega), hsub, ih hlt]
      rfl

/-- A bit of a byte of a number. -/
theorem getLsbD_getElem_bytesOf (n value : Nat) {i j : Nat} (hi : i < (bytesOf n value).length)
    (hj : j < 8) : (bytesOf n value)[i].getLsbD j = value.testBit (8 * i + j) := by
  rw [← testBit_littleEndian _ hi hj, littleEndian_bytesOf]
  rw [length_bytesOf] at hi
  have hpow : Nat.pow 256 n = 2 ^ (8 * n) := (Nat.pow_mul 2 8 n).symm
  rw [hpow, Nat.testBit_mod_two_pow, decide_eq_true (by omega), Bool.true_and]

namespace BitOp

/-- What becomes of a bit. -/
def onBit : BitOp → Bool → Bool
  | .test, bit => bit
  | .set, _ => true
  | .reset, _ => false
  | .complement, bit => !bit

/-- The operation changes one bit. -/
theorem getLsbD_apply (op : BitOp) (value : Dword) {i j : Nat} (hj : j < 32) :
    (op.apply value ((1 : Dword) <<< i)).getLsbD j
      = if j = i then op.onBit (value.getLsbD j) else value.getLsbD j := by
  have hone : ((1 : Dword) <<< i).getLsbD j = decide (j = i) := by
    change (BitVec.twoPow 32 i).getLsbD j = _
    rw [BitVec.getLsbD_twoPow, Bool.eq_iff_iff]
    simp only [Bool.and_eq_true, decide_eq_true_eq]
    omega
  cases op with
  | test => exact (ite_self _).symm
  | set =>
    rw [apply, BitVec.getLsbD_or, hone]
    by_cases h : j = i <;> simp [h, onBit]
  | reset =>
    rw [apply, BitVec.getLsbD_and, BitVec.getLsbD_not, hone]
    by_cases h : j = i <;> simp [h, onBit]
    omega
  | complement =>
    rw [apply, BitVec.getLsbD_xor, hone]
    by_cases h : j = i <;> simp [h, onBit]

end BitOp

/-! ## Places of bits -/

/-- The offset of the byte that holds bit `n` of the string at an offset. -/
def bitByte (offset : Dword) (n : Int) : Dword := offset + BitVec.ofInt 32 (n.fdiv 8)

/-- The number inside its byte of bit `n` of a string. -/
def bitIndex (n : Int) : Nat := (n % 8).toNat

variable (w : Width) (n : Int)

/-- The unit of a bit holds the byte of the bit. -/
theorem bitByte_eq (offset : Dword) :
    bitByte offset n = unitStart w offset n + BitVec.ofNat 32 (unitBit w n / 8) := by
  have hdistance : n.fdiv 8 = n.fdiv w.bits * w.bytes + (unitBit w n / 8 : Nat) := by
    rw [unitBit, Int.fdiv_eq_ediv_of_nonneg _ (by decide), Int.fdiv_eq_ediv_of_nonneg _ (Int.natCast_nonneg _)]
    cases w <;> simp only [Width.bits, Width.bytes] <;> omega
  rw [bitByte, unitStart, hdistance, BitVec.ofInt_add, BitVec.ofInt_natCast, BitVec.add_assoc]

theorem bitIndex_eq : bitIndex n = unitBit w n % 8 := by
  rw [bitIndex, unitBit]
  cases w <;> simp only [Width.bits] <;> omega

/-! ## Changes of single bits -/

section Memory

variable {H : Type} [Host H] {A : Dword → Prop} {h : H} {linear : Dword} {w : Width} {op : BitOp}
  {bytes : List Byte} {i : Nat}

/-- In a region of memory an operation is applied to one bit, and all other bits stay. -/
def ChangesBit (A : Dword → Prop) (op : BitOp) (address : Dword) (index : Nat) (h h' : H) : Prop :=
  ∀ a c, A a → Host.read h a = .ok c → ∃ c', Host.read h' a = .ok c' ∧
    ∀ j < 8, c'.getLsbD j
      = if a = address ∧ j = index then op.onBit (c.getLsbD j) else c.getLsbD j

theorem changesBit_test (address : Dword) (index : Nat) : ChangesBit A .test address index h h :=
  fun _ c _ hc => ⟨c, hc, fun _ _ => (ite_self _).symm⟩

/-- A bit of the value of a unit is a bit of one of its bytes. -/
theorem getLsbD_littleEndian {j : Nat} {k : Nat} (hk : k < bytes.length) (hj : j < 8)
    (hlt : 8 * k + j < 32) :
    (BitVec.ofNat 32 (littleEndian bytes)).getLsbD (8 * k + j) = bytes[k].getLsbD j := by
  rw [BitVec.getLsbD_ofNat, decide_eq_true hlt, Bool.true_and, testBit_littleEndian bytes hk hj]

/-- A unit that is stored with a changed bit. -/
theorem changesBit_storeAll (hb : Backs A h) (hw : Within A linear w.bytes)
    (hr : hostBytes h linear w.bytes = .ok bytes) (hi : i < w.bits) :
    ChangesBit A op (linear + BitVec.ofNat 32 (i / 8)) (i % 8) h
      (storeAll h linear (bytesOf w.bytes
        (op.apply (BitVec.ofNat 32 (littleEndian bytes)) ((1 : Dword) <<< i)).toNat)) := by
  have hbits := w.bits_eq
  have hle := w.bits_le
  have hold : bytes.length = w.bytes := length_hostBytes hr
  have hnew (value : Nat) : (bytesOf w.bytes value).length = w.bytes := length_bytesOf _ _
  intro a c ha hc
  by_cases hin : Spans linear w.bytes a
  · obtain ⟨k, hk, rfl⟩ := hin
    have hwithin : Within A linear (bytesOf w.bytes
        (op.apply (BitVec.ofNat 32 (littleEndian bytes)) ((1 : Dword) <<< i)).toNat).length := by
      rwa [hnew]
    have hread := hb.read_storeAll hwithin (by rw [hnew]; omega) (i := k) (by rwa [hnew])
    refine ⟨_, hread, fun j hj => ?_⟩
    rw [read_getElem_of_hostBytes hr (hold.symm ▸ hk)] at hc
    cases hc
    have hsame : (linear + BitVec.ofNat 32 k = linear + BitVec.ofNat 32 (i / 8) ∧ j = i % 8)
        ↔ 8 * k + j = i := by
      rw [BitVec.add_right_inj]
      constructor
      · rintro ⟨heq, rfl⟩
        have := congrArg BitVec.toNat heq
        simp only [BitVec.toNat_ofNat] at this
        omega
      · rintro rfl
        exact ⟨congrArg _ (by omega), by omega⟩
    rw [getLsbD_getElem_bytesOf _ _ _ hj, BitVec.testBit_toNat, BitOp.getLsbD_apply op _ (by omega),
      getLsbD_littleEndian (hold.symm ▸ hk) hj (by omega)]
    simp only [hsame]
  · have hother : a ≠ linear + BitVec.ofNat 32 (i / 8) := fun heq => hin ⟨i / 8, by omega, heq⟩
    refine ⟨c, ?_, fun j _ => (if_neg fun hsame => hother hsame.1).symm⟩
    rw [hb.read_storeAll_of_ne (by rwa [hnew]) ha fun k hk heq => hin ⟨k, hnew _ ▸ hk, heq⟩]
    exact hc

end Memory

/-! ## Operands -/

variable {H : Type} [Host H] {m m' : Machine H} {A : Dword → Prop} {op : BitOp} {w : Width}
  {seg : Seg} {offset : Dword} {i : Nat}

/-- The unit of a bit can be read, and written when the bit is changed. -/
structure Machine.UnitAccess (m : Machine H) (op : BitOp) (w : Width) (seg : Seg) (offset : Dword) :
    Prop where
  reads : (m.segs.get seg).Grants m.toProcessor .read offset w.bytes
  writes : op ≠ .test → (m.segs.get seg).Grants m.toProcessor .write offset w.bytes
  present : ∃ bytes, hostBytes m.host ((m.segs.get seg).base + offset) w.bytes = .ok bytes

omit [Host H] in
/-- The carry flag takes no part in what a segment grants. -/
theorem SegmentCache.Grants.setCarry {cache : SegmentCache} {s : Processor} {access : Access}
    {len : Nat} (bit : Bool) :
    cache.Grants (s.setFlag Flags.carry bit) access offset len ↔ cache.Grants s access offset len := by
  have hmode : (s.setFlag Flags.carry bit).usesDescriptors = s.usesDescriptors := by
    have hvirtual : (s.setFlag Flags.carry bit).isVirtual8086 = s.isVirtual8086 :=
      Flags.test_assign_of_disjoint (by decide) s.eflags bit
    rw [Processor.usesDescriptors, hvirtual]
    rfl
  constructor
  · intro h
    exact ⟨hmode ▸ h.rights, h.bounds⟩
  · intro h
    exact ⟨hmode.symm ▸ h.rights, h.bounds⟩

namespace Exec

/-- A bit of a value is tested with a mask. -/
theorem and_mask_ne_zero (value : Dword) (hi : i < 32) :
    (value &&& (1 : Dword) <<< i != 0) = value.getLsbD i :=
  and_twoPow_bne_zero hi value

theorem bitOperand_register_run (op : BitOp) (r : Reg) (m : Machine H) (hi : i < 32) :
    (bitOperand w op (.register r) i).run m
      = (if op ≠ .test then
          writeOperand w (.register r) (op.apply (m.reg w r) ((1 : Dword) <<< i))
        else pure ()).run
          { m with toProcessor := m.setFlag Flags.carry ((m.reg w r).getLsbD i) } := by
  have hread : (readOperand w (.register r)).run m = .ok (m.reg w r) m := rfl
  rw [bitOperand, run_bind_of_ok hread, and_mask_ne_zero _ hi]
  rfl

/-- A bit instruction succeeds on a unit that can be accessed. -/
theorem bitOperand_memory_run (ha : m.UnitAccess op w seg offset) (hb : Backs A m.host)
    (hw : Within A ((m.segs.get seg).base + offset) w.bytes) (hi : i < w.bits) :
    ∃ c host, (bitOperand w op (.memory seg offset) i).run m = .ok ()
        { m with toProcessor := m.setFlag Flags.carry (c.getLsbD (i % 8)), host := host } ∧
      Host.read m.host ((m.segs.get seg).base + offset + BitVec.ofNat 32 (i / 8)) = .ok c ∧
      StoredIn (Spans ((m.segs.get seg).base + offset) w.bytes) m.host host ∧
      (op = .test → host = m.host) ∧
      ChangesBit A op ((m.segs.get seg).base + offset + BitVec.ofNat 32 (i / 8)) (i % 8)
        m.host host := by
  have hbits := w.bits_eq
  have hle := w.bits_le
  obtain ⟨bytes, hbytes⟩ := ha.present
  have hlen : bytes.length = w.bytes := length_hostBytes hbytes
  have hbyte : i / 8 < bytes.length := by omega
  have hvalue : value? (load w seg offset) m = some (BitVec.ofNat 32 (littleEndian bytes)) :=
    value?_load_eq_some_iff.2 ⟨ha.reads, bytes, hbytes, rfl⟩
  have hread : (readOperand w (.memory seg offset)).run m
      = .ok (BitVec.ofNat 32 (littleEndian bytes)) m := (load_observes w seg offset).run_of_value hvalue
  have hcarry : (BitVec.ofNat 32 (littleEndian bytes)).getLsbD i = bytes[i / 8].getLsbD (i % 8) := by
    have hsplit : 8 * (i / 8) + i % 8 = i := Nat.div_add_mod i 8
    have hbit := getLsbD_littleEndian hbyte (Nat.mod_lt i (by decide)) (by omega)
    rwa [hsplit] at hbit
  rw [bitOperand, run_bind_of_ok hread, and_mask_ne_zero _ (by omega), hcarry]
  refine ⟨bytes[i / 8], ?_⟩
  by_cases hop : op = .test
  · subst hop
    exact ⟨m.host, rfl, read_getElem_of_hostBytes hbytes hbyte, .refl, fun _ => rfl,
      changesBit_test _ _⟩
  · have hgrants := (SegmentCache.Grants.setCarry (bytes[i / 8].getLsbD (i % 8))).2 (ha.writes hop)
    have hspans (value : Dword) : Within (Spans ((m.segs.get seg).base + offset) w.bytes)
        ((m.segs.get seg).base + offset) (bytesOf w.bytes value.toNat).length := by
      rw [length_bytesOf]
      exact within_spans _ _
    have hwithin : Within A ((m.segs.get seg).base + offset) (bytesOf w.bytes
        (op.apply (BitVec.ofNat 32 (littleEndian bytes)) ((1 : Dword) <<< i)).toNat).length := by
      rwa [length_bytesOf]
    have hstore := storeBytes_backed (m := { m with
        toProcessor := m.setFlag Flags.carry (bytes[i / 8].getLsbD (i % 8)) })
      (by rwa [length_bytesOf]) hb hwithin
    simp only [if_pos hop]
    exact ⟨_, hstore, read_getElem_of_hostBytes hbytes hbyte, storedIn_storeAll (hspans _),
      fun h => absurd h hop, changesBit_storeAll hb hw hbytes hi⟩

/-- A bit instruction that succeeds has accessed the unit. -/
theorem unitAccess_of_run (h : (bitOperand w op (.memory seg offset) i).run m = .ok () m') :
    m.UnitAccess op w seg offset := by
  obtain ⟨value, m₁, hload, hrest⟩ := run_bind_eq_ok_iff.1 h
  rw [readOperand] at hload
  obtain ⟨hreads, bytes, hbytes, -⟩ := value?_load_eq_some_iff.1 (value?_of_ok hload)
  obtain rfl : m₁ = m := (load_observes w seg offset m).of_ok hload
  refine ⟨hreads, fun hop => ?_, bytes, hbytes⟩
  obtain ⟨_, m₂, hcarry, hstore⟩ := run_bind_eq_ok_iff.1 hrest
  cases hcarry
  rw [if_pos hop] at hstore
  exact (SegmentCache.Grants.setCarry _).1 ((store_ends w seg offset _ _).of_ok hstore).2

end Exec

/-! ## Steps -/

/-- A bit instruction has copied bit `n` of the string at an offset to carry, and changed it as
the operation says.  It has changed no other bit of a region of memory, and it has stored nothing
beside the unit of the bit. -/
structure Machine.TestsMemory (A : Dword → Prop) (m : Machine H) (op : BitOp) (w : Width) (seg : Seg)
    (offset : Dword) (n : Int) (next : Dword) (m' : Machine H) : Prop where
  carry : ∃ c, Host.read m.host ((m.segs.get seg).base + bitByte offset n) = .ok c ∧
    m'.toProcessor = { m.setFlag Flags.carry (c.getLsbD (bitIndex n)) with eip := next }
  memory : ChangesBit A op ((m.segs.get seg).base + bitByte offset n) (bitIndex n) m.host m'.host
  unit : StoredIn (Spans ((m.segs.get seg).base + unitStart w offset n) w.bytes) m.host m'.host
  test : op = .test → m'.host = m.host

/-- A bit instruction has copied a bit of a register to carry, and changed it as the operation
says. -/
structure Machine.TestsRegister (m : Machine H) (op : BitOp) (w : Width) (r : Reg) (i : Nat)
    (next : Dword) (m' : Machine H) : Prop where
  test : op = .test →
    m'.toProcessor = { m.setFlag Flags.carry ((m.reg w r).getLsbD i) with eip := next }
  change : op ≠ .test → ∃ value,
    m'.toProcessor = { (m.setFlag Flags.carry ((m.reg w r).getLsbD i)).setReg w r value with
      eip := next } ∧
    ∀ j < 32, value.getLsbD j = if j = i then op.onBit ((m.reg w r).getLsbD j) else (m.reg w r).getLsbD j
  memory : m'.host = m.host

variable {b : BitInstruction} {r : Reg}

/-- The next instruction makes no difference to what can be accessed. -/
theorem Machine.unitAccess_moved {next : Dword} {log : Log} :
    { m with eip := next, log := log }.UnitAccess op w seg offset ↔ m.UnitAccess op w seg offset := by
  constructor
  · intro h
    exact ⟨⟨h.reads.rights, h.reads.bounds⟩, fun hop => ⟨(h.writes hop).rights, (h.writes hop).bounds⟩,
      h.present⟩
  · intro h
    exact ⟨⟨h.reads.rights, h.reads.bounds⟩, fun hop => ⟨(h.writes hop).rights, (h.writes hop).bounds⟩,
      h.present⟩

namespace Exec

theorem runBits_run (b : BitInstruction) (m : Machine H) :
    (runBits b).run m = (bitOperand b.width b.op
      (b.place.unitAt b.width (b.number m.toProcessor))
      (unitBit b.width (b.number m.toProcessor))).run m := by
  rw [runBits, run_view_bind]

/-- A bit instruction in memory. -/
theorem runBits_memory (hplace : b.place = .memory seg offset) (hb : Backs A m.host)
    (hw : Within A ((m.segs.get seg).base + unitStart b.width offset (b.number m.toProcessor))
      b.width.bytes)
    (ha : m.UnitAccess b.op b.width seg (unitStart b.width offset (b.number m.toProcessor))) :
    ∃ m', (runBits b).run m = .ok () m' ∧
      m.TestsMemory A b.op b.width seg offset (b.number m.toProcessor) m.eip m' := by
  obtain ⟨c, host, hrun, hread, hunit, htest, hchange⟩ := bitOperand_memory_run ha hb hw
    (unitBit_lt b.width (b.number m.toProcessor))
  have hbyte : (m.segs.get seg).base + bitByte offset (b.number m.toProcessor)
      = (m.segs.get seg).base + unitStart b.width offset (b.number m.toProcessor)
        + BitVec.ofNat 32 (unitBit b.width (b.number m.toProcessor) / 8) := by
    rw [bitByte_eq b.width, BitVec.add_assoc]
  rw [← hbyte] at hread hchange
  rw [← bitIndex_eq] at hrun hchange
  rw [runBits_run, hplace]
  exact ⟨_, hrun, ⟨c, hread, rfl⟩, hchange, hunit, htest⟩

/-- A bit instruction in a register. -/
theorem runBits_register (hplace : b.place = .register r) (m : Machine H) :
    ∃ m', (runBits b).run m = .ok () m' ∧
      m.TestsRegister b.op b.width r (unitBit b.width (b.number m.toProcessor)) m.eip m' := by
  have hi := (unitBit_lt b.width (b.number m.toProcessor)).trans_le b.width.bits_le
  rw [runBits_run, hplace, Operand.unitAt, bitOperand_register_run _ _ _ hi]
  by_cases hop : b.op = .test
  · rw [if_neg (not_not.2 hop)]
    exact ⟨_, rfl, fun _ => rfl, fun h => absurd hop h, rfl⟩
  · rw [if_pos hop]
    exact ⟨_, rfl, fun h => absurd h hop,
      fun _ => ⟨_, rfl, fun _ hj => b.op.getLsbD_apply _ hj⟩, rfl⟩

end Exec

/-- A bit instruction works on a string of bits in memory, in which the number in a register reaches
in both directions, and it is completed just when the unit of the bit can be accessed.  In a
register, and for a number in the code, it works on the operand itself. -/
theorem Machine.bitInstruction_step (m : Machine H) {b : BitInstruction} {next : Dword}
    (h : m.bitInstruction? = some ⟨b, next⟩) :
    (∀ (A : Dword → Prop) seg offset, b.place = .memory seg offset → Backs A m.host →
      Within A ((m.segs.get seg).base + unitStart b.width offset (b.number m.toProcessor))
        b.width.bytes →
      (m.step.1 = .completed ↔
        m.UnitAccess b.op b.width seg (unitStart b.width offset (b.number m.toProcessor))) ∧
      (m.step.1 = .completed →
        m.TestsMemory A b.op b.width seg offset (b.number m.toProcessor) next m.step.2)) ∧
    (∀ r, b.place = .register r → m.step.1 = .completed ∧
      m.TestsRegister b.op b.width r (unitBit b.width (b.number m.toProcessor)) next m.step.2) ∧
    ∀ k, b.source = .immediate k →
      b.number m.toProcessor = (k.toNat % b.width.bits : Nat) ∧
        ∀ offset, unitStart b.width offset (b.number m.toProcessor) = offset := by
  obtain ⟨m₁, htakes⟩ := exists_takes h
  obtain ⟨log, rfl⟩ := htakes.moved
  refine ⟨fun A seg offset hplace hb hw => ?_, fun r hplace => ?_, fun k hk => ?_⟩
  · have hrun := runBits_run b { m with eip := next, log := log }
    rw [hplace] at hrun
    have hdone (ha : { m with eip := next, log := log }.UnitAccess b.op b.width seg
        (unitStart b.width offset (b.number m.toProcessor))) :
        m.step.1 = .completed ∧
          m.TestsMemory A b.op b.width seg offset (b.number m.toProcessor) next m.step.2 := by
      obtain ⟨m', hr, htests⟩ :=
        runBits_memory (m := { m with eip := next, log := log }) hplace hb hw ha
      rw [htakes.completes hr]
      exact ⟨rfl, htests.carry, htests.memory, htests.unit, htests.test⟩
    have haccess (hs : m.step.1 = .completed) :
        { m with eip := next, log := log }.UnitAccess b.op b.width seg
          (unitStart b.width offset (b.number m.toProcessor)) := by
      obtain ⟨m', hr, -⟩ := htakes.exists_of_completed hs
      exact unitAccess_of_run (hrun.symm.trans hr)
    exact ⟨⟨fun hs => unitAccess_moved.1 (haccess hs), fun ha => (hdone (unitAccess_moved.2 ha)).1⟩,
      fun hs => (hdone (haccess hs)).2⟩
  · obtain ⟨m', hr, htests⟩ := runBits_register hplace { m with eip := next, log := log }
    rw [htakes.completes hr]
    exact ⟨rfl, htests.test, htests.change, htests.memory⟩
  · have hnumber : b.number m.toProcessor = (k.toNat % b.width.bits : Nat) := by
      rw [BitInstruction.number, hk]
    rw [hnumber]
    exact ⟨rfl, unitStart_of_lt (Nat.mod_lt _ b.width.bits_pos)⟩

/-- A machine before it sets the bit under the word at `8`. -/
def Machine.settingBit : Machine Ram :=
  let m := Machine.initial ⟨⟨#[0x0F, 0xAB, 0x07, 0, 0, 0, 0, 0, 0, 0]⟩, none, 0, #[]⟩ {}
  { m with
    regs := ((m.setReg .word Reg.ebx 8).setReg .word Reg.eax 0xFFFF).regs
    eip := 0
    segs := { Segments.initial with cs := .realMode 0 false } }

/-- The highest bit of the byte below is set. -/
theorem Machine.bitInstruction_step_settingBit :
    settingBit.step.1 = .completed ∧
      settingBit.TestsMemory (fun a => a.toNat < 10) .set .word .ds 8 (-1) 3 settingBit.step.2 ∧
      (bitByte 8 (-1), bitIndex (-1)) = (7, 7) ∧ unitStart .word 8 (-1) = 6 := by
  have hstart : settingBit.bitInstruction?
      = some ⟨⟨.set, .word, .memory .ds 8, .register Reg.eax⟩, 3⟩ := by decide +kernel
  have hnumber : BitInstruction.number ⟨.set, .word, .memory .ds 8, .register Reg.eax⟩
      settingBit.toProcessor = -1 := by decide +kernel
  have hunit : (settingBit.segs.get .ds).base + unitStart .word 8 (-1) = 6 := by decide +kernel
  have hwithin : Within (fun a => a.toNat < 10) 6 Width.word.bytes := by
    have hall : ∀ i < 2, ((6 : Dword) + BitVec.ofNat 32 i).toNat < 10 := by decide
    exact hall
  have hsteps := bitInstruction_step settingBit hstart
  rw [hnumber] at hsteps
  obtain ⟨haccess, htests⟩ := hsteps.1 (fun a => a.toNat < 10) .ds 8 rfl
    (Ram.backs (m := settingBit.host) rfl) (hunit ▸ hwithin)
  have hcompleted : settingBit.step.1 = .completed := haccess.2
    ⟨⟨fun hu => absurd hu (by decide +kernel), by decide +kernel⟩,
      fun _ => ⟨fun hu => absurd hu (by decide +kernel), by decide +kernel⟩, [0, 0], by decide +kernel⟩
  exact ⟨hcompleted, htests hcompleted, by decide, by decide⟩

end Ia32
