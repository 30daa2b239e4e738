import Ia32.Proofs.BackedMemory
import Ia32.Proofs.FarRuns
import Ia32.Proofs.IndexRegisters

/-!
# Values on the stack

The stack pointer and the offsets of the values above it are cut to the width of
the stack segment, so that the values on a stack of 16 bits may go around its end.
No two of them overlap.

`Machine.Holds` says which values stand on top of the stack in memory.  A push
puts one more under those that stand there already, and a load finds them.
-/

namespace Ia32

open Host Exec

variable {H : Type}

/-! ## The stack pointer -/

namespace Processor

variable (s : Processor) {d d' : Dword} {w : Width} {r : Reg}

/-- The width of the stack pointer. -/
def stackWidth : Width := if s.stack32 then .dword else .word

theorem stackWidth_ne : s.stackWidth ≠ .byte := by
  unfold stackWidth
  split <;> decide

theorem wrapStack_eq (offset : Dword) : s.wrapStack offset = s.stackWidth.truncate offset := by
  unfold wrapStack stackWidth
  split
  · exact (Width.truncate_dword offset).symm
  · rfl

/-- The processor with the stack pointer moved up by a number of bytes, or down by a negative
number. -/
def addSp (d : Dword) : Processor := s.setSp (s.spPlus d)

/-- The stack pointer steps as any register does. -/
theorem addSp_eq : s.addSp d = s.addReg s.stackWidth Reg.esp d := by
  have hsp : s.sp = s.reg s.stackWidth Reg.esp := by
    rw [sp, wrapStack_eq, reg_of_wide s.stackWidth_ne]
    rfl
  have hset (value : Dword) : s.setSp value = s.setReg s.stackWidth Reg.esp value := rfl
  rw [addSp, hset, spPlus, wrapStack_eq, setReg_truncate s.stackWidth_ne, hsp, addReg]

theorem addSp_zero : s.addSp 0 = s := by
  rw [addSp_eq, addReg_zero s.stackWidth_ne]

theorem addSp_addSp : (s.addSp d).addSp d' = s.addSp (d + d') := by
  have hwidth : (s.addSp d).stackWidth = s.stackWidth := rfl
  rw [addSp_eq (s.addSp d), hwidth, addSp_eq, addSp_eq, addReg_addReg s.stackWidth_ne]

theorem sp_addSp : (s.addSp d).sp = s.spPlus d := by
  have hsp : (s.addSp d).sp = s.wrapStack (s.spPlus d) := s.sp_setSp _
  rw [hsp, spPlus, wrapStack_idem]

theorem spPlus_addSp : (s.addSp d).spPlus d' = s.spPlus (d + d') := by
  have hwrap (offset : Dword) : (s.addSp d).wrapStack offset = s.wrapStack offset := rfl
  rw [spPlus, sp_addSp, hwrap, spPlus, wrapStack_eq, wrapStack_eq, Width.truncate_truncate_add,
    BitVec.add_assoc, ← wrapStack_eq]
  rfl

/-- The other registers stay. -/
theorem reg_addSp_of_ne (hr : Reg.esp ≠ holder w r) : (s.addSp d).reg w r = s.reg w r := by
  rw [addSp_eq, reg_addReg_of_ne s.stackWidth_ne hr]

end Processor

/-! ## Places -/

/-- Values at multiples of their width do not overlap, also when their offsets go around. -/
theorem slots_apart {v : Width} (hv : v ≠ .byte) (w : Width) (base top : Dword) {k k' : Nat}
    (hne : k ≠ k') (hk : k < 2 ^ 14) (hk' : k' < 2 ^ 14) {a : Dword}
    (ha : Spans (base + v.truncate (top + BitVec.ofNat 32 (k * w.bytes))) w.bytes a) :
    ¬Spans (base + v.truncate (top + BitVec.ofNat 32 (k' * w.bytes))) w.bytes a := by
  obtain ⟨i, hi, rfl⟩ := ha
  rintro ⟨j, hj, hsame⟩
  have hbytes : w.bytes ≤ 4 := by cases w <;> decide
  have hi' : (BitVec.ofNat 32 i).toNat = i := Nat.mod_eq_of_lt (by omega)
  have hj' : (BitVec.ofNat 32 j).toNat = j := Nat.mod_eq_of_lt (by omega)
  rw [BitVec.add_assoc, BitVec.add_assoc, BitVec.add_right_inj] at hsame
  have hsum := congrArg BitVec.toNat hsame
  have htop := top.isLt
  simp only [BitVec.toNat_add, Width.toNat_truncate, hi', hj', BitVec.toNat_ofNat] at hsum
  cases w <;> cases v <;> simp only [Width.bytes, Width.bits, ne_eq, not_true] at hsum hv hi hj <;>
    omega

namespace Processor

variable {s : Processor} {w : Width} {a d : Dword} {j k n : Nat}

/-- The linear address of value number `k` on the stack. -/
def stackAddress (s : Processor) (w : Width) (k : Nat) : Dword :=
  s.segs.ss.base + slot s w s.sp k

/-- The first value stands at the stack pointer. -/
theorem slot_zero (s : Processor) (w : Width) : slot s w s.sp 0 = s.sp := by
  have hzero : s.sp + BitVec.ofNat 32 (0 * w.bytes) = s.sp := by
    rw [Nat.zero_mul]
    exact BitVec.add_zero _
  rw [slot, hzero]
  exact s.wrapStack_idem _

/-- An address belongs to the top `n` values of the stack. -/
def StackByte (s : Processor) (w : Width) (n : Nat) (a : Dword) : Prop :=
  ∃ k < n, Spans (s.stackAddress w k) w.bytes a

/-- The processor after `n` values are pushed. -/
def belowStack (s : Processor) (w : Width) (n : Nat) : Processor :=
  s.addSp (-(BitVec.ofNat 32 (n * w.bytes)))

/-- The instruction pointer is not looked at. -/
theorem stackAddress_moved (s : Processor) (w : Width) (k : Nat) (eip : Dword) :
    { s with eip := eip }.stackAddress w k = s.stackAddress w k := rfl

theorem stackAddress_addSp :
    (s.addSp d).stackAddress w k = s.segs.ss.base + s.spPlus (d + BitVec.ofNat 32 (k * w.bytes)) :=
  congrArg (s.segs.ss.base + ·) s.spPlus_addSp

theorem stackAddress_belowStack : (s.belowStack w j).stackAddress w (j + k) = s.stackAddress w k := by
  have hnumber : -(BitVec.ofNat 32 (j * w.bytes)) + BitVec.ofNat 32 ((j + k) * w.bytes)
      = BitVec.ofNat 32 (k * w.bytes) := by
    rw [Nat.add_mul, BitVec.ofNat_add, ← BitVec.add_assoc, BitVec.add_left_neg, BitVec.zero_add]
  rw [belowStack, stackAddress_addSp, hnumber]
  rfl

theorem belowStack_belowStack : (s.belowStack w j).belowStack w k = s.belowStack w (j + k) := by
  have hsum : -(BitVec.ofNat 32 (j * w.bytes)) + -(BitVec.ofNat 32 (k * w.bytes))
      = -(BitVec.ofNat 32 ((j + k) * w.bytes)) := by
    rw [Nat.add_mul, BitVec.ofNat_add, BitVec.neg_add, BitVec.sub_eq_add_neg]
  rw [belowStack, belowStack, belowStack, addSp_addSp, hsum]

theorem belowStack_zero : s.belowStack w 0 = s := by
  rw [belowStack, Nat.zero_mul]
  exact s.addSp_zero

/-- What is pushed can be taken off again. -/
theorem addSp_belowStack : (s.belowStack w j).addSp (BitVec.ofNat 32 (j * w.bytes)) = s := by
  rw [belowStack, addSp_addSp, BitVec.add_left_neg]
  exact s.addSp_zero

/-- The values that are there already are among those that are there after some pushes. -/
theorem StackByte.belowStack (h : s.StackByte w n a) (j : Nat) :
    (s.belowStack w j).StackByte w (j + n) a := by
  obtain ⟨k, hk, ha⟩ := h
  exact ⟨j + k, Nat.add_lt_add_left hk j, stackAddress_belowStack.symm ▸ ha⟩

/-- Values on the stack do not overlap. -/
theorem stackAddress_apart (hne : j ≠ k) (hj : j < 2 ^ 14) (hk : k < 2 ^ 14)
    (ha : Spans (s.stackAddress w j) w.bytes a) : ¬Spans (s.stackAddress w k) w.bytes a := by
  have haddress (i : Nat) : s.stackAddress w i
      = s.segs.ss.base + s.stackWidth.truncate (s.sp + BitVec.ofNat 32 (i * w.bytes)) :=
    congrArg (s.segs.ss.base + ·) (s.wrapStack_eq _)
  rw [haddress] at ha ⊢
  exact slots_apart s.stackWidth_ne w _ _ hne hj hk ha

end Processor

/-! ## Values in memory -/

variable [Host H] {m m' : Machine H} {A : Dword → Prop} {w : Width} {values pushed : List Dword}
  {value : Dword} {k : Nat}

/-- Values stand on top of the stack. -/
def Machine.Holds (m : Machine H) (w : Width) (values : List Dword) : Prop :=
  ∀ k value, values[k]? = some value →
    hostBytes m.host (m.stackAddress w k) w.bytes = .ok (bytesOf w.bytes value.toNat)

theorem Machine.holds_nil (m : Machine H) (w : Width) : m.Holds w [] := nofun

/-- A value that is stored in its place on the stack is read back, and the others stay. -/
theorem hostBytes_storeValue {s : Processor} {h : H} {j : Nat} (hb : Backs A h)
    (hj : Within A (s.stackAddress w j) w.bytes) (hk : Within A (s.stackAddress w k) w.bytes)
    (hn : j < 2 ^ 14) (hn' : k < 2 ^ 14) (value : Dword) :
    hostBytes (storeAll h (s.stackAddress w j) (bytesOf w.bytes value.toNat)) (s.stackAddress w k)
        w.bytes
      = if k = j then .ok (bytesOf w.bytes value.toNat)
        else hostBytes h (s.stackAddress w k) w.bytes := by
  have hlen : (bytesOf w.bytes value.toNat).length = w.bytes := length_bytesOf _ _
  split
  next heq =>
    have hbytes : w.bytes ≤ 2 ^ 32 := by cases w <;> decide
    have hread : hostBytes (storeAll h (s.stackAddress w j) (bytesOf w.bytes value.toNat)) _
        (bytesOf w.bytes value.toNat).length = _ :=
      hostBytes_storeAll hb (by rwa [hlen]) (by rwa [hlen])
    rw [hlen] at hread
    rw [heq, hread]
  next hne =>
    refine hostBytes_of_storedIn hb (storedIn_storeAll (within_spans _ _)) (fun a ha => ?_) hk
      fun i hi ha => ?_
    · rw [hlen] at ha
      exact hj.of_spans ha
    · rw [hlen] at ha
      exact Processor.stackAddress_apart hne hn' hn ⟨i, hi, rfl⟩ ha

/-- The machine after a push. -/
def Machine.afterPush (m : Machine H) (w : Width) (value : Dword) : Machine H :=
  { m with
    toProcessor := m.belowStack w 1
    host := storeAll m.host ((m.belowStack w 1).stackAddress w 0) (bytesOf w.bytes value.toNat) }

theorem Machine.storedIn_afterPush
    (hA : Within A ((m.belowStack w 1).stackAddress w 0) w.bytes) :
    StoredIn A m.host (m.afterPush w value).host :=
  storedIn_storeAll (by rwa [length_bytesOf])

namespace Machine.Holds

/-- Neither the instruction pointer nor the log nor the number of instructions is looked at. -/
theorem moved (h : m.Holds w values) (eip : Dword) (log : Log) (retired : Fin UInt64.size) :
    { m with eip := eip, log := log, retired := retired }.Holds w values := h

/-- What is pushed stands on top of the stack, above the values that are there already. -/
theorem afterPush (h : m.Holds w values) (hb : Backs A m.host)
    (hA : ∀ a, (m.belowStack w 1).StackByte w (1 + values.length) a → A a)
    (hn : values.length < 2 ^ 14 - 1) : (m.afterPush w value).Holds w (value :: values) := by
  have hwithin (j : Nat) (hj : j < 1 + values.length) :
      Within A ((m.belowStack w 1).stackAddress w j) w.bytes := fun i hi =>
    hA _ ⟨j, hj, i, hi, rfl⟩
  intro k value' hv
  cases k with
  | zero =>
    cases hv
    exact (hostBytes_storeValue hb (hwithin 0 (by omega)) (hwithin 0 (by omega)) (by decide)
      (by decide) value).trans (if_pos rfl)
  | succ k =>
    rw [List.getElem?_cons_succ] at hv
    have hk : k < values.length := (List.getElem?_eq_some_iff.1 hv).1
    have hkept := hostBytes_storeValue hb (hwithin 0 (by omega)) (hwithin (k + 1) (by omega))
      (by decide) (by omega) value
    refine (hkept.trans (if_neg (Nat.succ_ne_zero k))).trans ?_
    rw [Nat.add_comm k 1, Processor.stackAddress_belowStack]
    exact h k value' hv

/-- A load finds a value of the stack when the segment grants it. -/
theorem load_iff (h : m.Holds w values) (hv : values[k]? = some value) {x : Dword} :
    value? (load w .ss (slot m.toProcessor w m.sp k)) m = some x ↔
      m.segs.ss.Grants m.toProcessor .read (slot m.toProcessor w m.sp k) w.bytes ∧
        x = w.truncate value := by
  have hbytes : hostBytes m.host ((m.segs.get .ss).base + slot m.toProcessor w m.sp k) w.bytes
      = .ok (bytesOf w.bytes value.toNat) := h k value hv
  have hvalue : BitVec.ofNat 32 (littleEndian (bytesOf w.bytes value.toNat)) = w.truncate value := by
    apply BitVec.eq_of_toNat_eq
    rw [littleEndian_bytesOf, BitVec.toNat_ofNat, Width.toNat_truncate]
    cases w <;> simp only [Width.bytes, Width.bits, Nat.pow_eq] <;> omega
  rw [value?_load_eq_some_iff, hbytes]
  constructor
  · rintro ⟨hgrants, bytes, hread, rfl⟩
    cases hread
    exact ⟨hgrants, hvalue⟩
  · rintro ⟨hgrants, rfl⟩
    exact ⟨hgrants, _, rfl, hvalue⟩

end Machine.Holds

namespace Exec

theorem store_ends (w : Width) (seg : Seg) (offset value : Dword) (m : Machine H) :
    Ends (store w seg offset value) m
      (fun _ m' => m' = { m with
          host := storeAll m.host ((m.segs.get seg).base + offset) (bytesOf w.bytes value.toNat) } ∧
        (m.segs.get seg).Grants m.toProcessor .write offset w.bytes)
      fun _ _ => True := by
  rw [store, storeBytes, ends_bind]
  refine (linearOf_ends seg offset _ .write m).mono ?_ fun _ _ _ => trivial
  rintro linear m ⟨rfl, rfl, hgrants⟩
  rw [length_bytesOf] at hgrants
  exact (writeLinear_ends _ _ m).mono (fun _ _ h => ⟨h, hgrants⟩) fun _ _ _ => trivial

theorem push_ends (w : Width) (value : Dword) (m : Machine H) :
    Ends (push w value) m
      (fun _ m' => m' = m.afterPush w value ∧
        m.segs.ss.Grants m.toProcessor .write (m.belowStack w 1).sp w.bytes)
      fun _ _ => True := by
  have hone : -(BitVec.ofNat 32 w.bytes) = -(BitVec.ofNat 32 (1 * w.bytes)) := by rw [Nat.one_mul]
  have hplace : (m.belowStack w 1).stackAddress w 0 = m.segs.ss.base + (m.belowStack w 1).sp :=
    congrArg (m.segs.ss.base + ·) ((m.belowStack w 1).slot_zero w)
  rw [push, ends_bind, ends_view, ends_bind, hone, ← m.sp_addSp, ← Processor.belowStack]
  refine (store_ends w .ss _ value m).mono ?_ fun _ _ _ => trivial
  rintro _ _ ⟨rfl, hgrants⟩
  rw [ends_update, Machine.afterPush, hplace]
  refine ⟨?_, hgrants⟩
  rw [Processor.belowStack, Processor.sp_addSp]
  rfl

end Exec

end Ia32
