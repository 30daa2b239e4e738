import Mathlib.Tactic.IntervalCases
import Ia32.Proofs.FarTransfers
import Ia32.Proofs.StackValues

/-!
# Frames and descriptor tables

A call to a more privileged level stores a frame of double words, and marks
entries of the descriptor tables as accessed.  In memory that remembers, each
value of the frame is read back, because no two of them overlap.  The entries of
other descriptors stay as they were.
-/

namespace Ia32

open Host Exec

variable {H : Type}

/-! ## Entries -/

/-- An address belongs to the entry of a selector. -/
def EntryByte (s : Processor) (selector : Word) (a : Dword) : Prop :=
  hasEntry s selector = true ∧ Spans (entryAddress s selector) 8 a

theorem toNat_entryOffset (selector : Word) :
    (entryOffset selector).toNat = 8 * (selector.toNat / 8) := by
  have hshift : selector &&& (0xFFF8 : Word) = (selector >>> 3) <<< 3 := by
    apply BitVec.eq_of_getLsbD_eq
    intro i hi
    interval_cases i <;> simp
  have hlt := selector.isLt
  rw [entryOffset, hshift, BitVec.toNat_setWidth, BitVec.toNat_shiftLeft, BitVec.toNat_ushiftRight,
    Nat.shiftLeft_eq, Nat.shiftRight_eq_div_pow]
  omega

/-- Entries of one table at different offsets do not overlap. -/
theorem entryByte_unique {s : Processor} {selector selector' : Word} {a : Dword}
    (hlocal : isLocal selector = isLocal selector') (h : EntryByte s selector a)
    (h' : EntryByte s selector' a) : entryAddress s selector = entryAddress s selector' := by
  obtain ⟨-, i, hi, rfl⟩ := h
  obtain ⟨-, j, hj, hsame⟩ := h'
  have hbase : tableBase s selector = tableBase s selector' := by rw [tableBase, tableBase, hlocal]
  have hi' : (BitVec.ofNat 32 i).toNat = i := Nat.mod_eq_of_lt (by omega)
  have hj' : (BitVec.ofNat 32 j).toNat = j := Nat.mod_eq_of_lt (by omega)
  have hk := toNat_entryOffset selector
  have hk' := toNat_entryOffset selector'
  have hlt := selector.isLt
  have hlt' := selector'.isLt
  have hoffset : entryOffset selector = entryOffset selector' := by
    rw [entryAddress, entryAddress, hbase, BitVec.add_assoc, BitVec.add_assoc] at hsame
    have hsum := congrArg BitVec.toNat (BitVec.add_right_inj _ |>.1 hsame)
    rw [BitVec.toNat_add, BitVec.toNat_add, hi', hj'] at hsum
    apply BitVec.eq_of_toNat_eq
    omega
  rw [entryAddress, entryAddress, hbase, hoffset]

/-- The two tables do not overlap. -/
def TablesApart (s : Processor) : Prop :=
  ∀ selector selector' a, isLocal selector ≠ isLocal selector' → EntryByte s selector a →
    ¬EntryByte s selector' a

/-- Without a local table the tables do not overlap. -/
theorem tablesApart_of_isNull {s : Processor} (h : s.ldtr.isNull = true) : TablesApart s := by
  rintro selector selector' a hne ⟨hentry, -⟩ ⟨hentry', -⟩
  simp only [hasEntry, h] at hentry hentry'
  cases hl : isLocal selector <;> simp_all

/-- Without a local table every entry lies in the global one. -/
theorem entryByte_le {s : Processor} {selector : Word} {a : Dword} (h : s.ldtr.isNull = true)
    (hbase : s.gdtr.base = 0) (ha : EntryByte s selector a) : a.toNat ≤ s.gdtr.limit.toNat := by
  obtain ⟨hentry, i, hi, rfl⟩ := ha
  have hlocal : isLocal selector = false := by
    cases hl : isLocal selector
    · rfl
    · simp [hasEntry, hl, h] at hentry
  have haddress : entryAddress s selector = entryOffset selector := by
    rw [entryAddress, tableBase, hlocal, hbase]
    exact BitVec.zero_add _
  have hlt := s.gdtr.limit.isLt
  have hlast : (entryOffset selector).toNat + 7 ≤ s.gdtr.limit.toNat := by
    simp only [hasEntry, tableLast, hlocal, Bool.false_and, Bool.not_false, Bool.true_and,
      decide_eq_true_eq] at hentry
    rwa [if_neg Bool.false_ne_true, BitVec.toNat_setWidth, Nat.mod_eq_of_lt (by omega)] at hentry
  rw [haddress, BitVec.toNat_add, BitVec.toNat_ofNat]
  omega

variable [Host H] {m m' : Machine H} {A : Dword → Prop} {d d' : Descriptor} {selector selector' : Word}

theorem readDescriptor_run {bytes : List Byte} (he : hasEntry m.toProcessor selector = true)
    (hb : hostBytes m.host (entryAddress m.toProcessor selector) 8 = .ok bytes) :
    (readDescriptor selector).run m = .ok (.ofBytes bytes) m := by
  rw [readDescriptor, run_view_bind, he]
  exact run_bind_of_ok (readLinear_of_hostBytes hb) _

theorem descriptor?_eq_some_iff : m.farView.descriptor? selector = some d ↔
    hasEntry m.toProcessor selector = true ∧ ∃ bytes,
      hostBytes m.host (entryAddress m.toProcessor selector) 8 = .ok bytes ∧ d = .ofBytes bytes := by
  constructor
  · intro h
    obtain ⟨_, -, hfound⟩ := Ends.of_value (readDescriptor_finds selector m) h
    exact hfound
  · rintro ⟨hentry, bytes, hbytes, rfl⟩
    exact value?_of_ok (readDescriptor_run hentry hbytes)

/-- Different descriptors have entries that do not overlap. -/
theorem entryByte_apart (ht : TablesApart m.toProcessor)
    (h : m.farView.descriptor? selector = some d) (h' : m.farView.descriptor? selector' = some d')
    (hne : d ≠ d') {a : Dword} (ha : EntryByte m.toProcessor selector a) :
    ¬EntryByte m.toProcessor selector' a := by
  intro ha'
  by_cases hlocal : isLocal selector = isLocal selector'
  · obtain ⟨-, bytes, hbytes, rfl⟩ := descriptor?_eq_some_iff.1 h
    obtain ⟨-, bytes', hbytes', rfl⟩ := descriptor?_eq_some_iff.1 h'
    rw [entryByte_unique hlocal ha ha', hbytes'] at hbytes
    cases hbytes
    exact hne rfl
  · exact ht _ _ a hlocal ha ha'

/-! ## Marks -/

namespace Exec

theorem within_markedHalf {s : Processor} (he : hasEntry s selector = true) (value : Nat) :
    Within (EntryByte s selector) (entryAddress s selector + 4) (bytesOf 4 value).length := by
  intro i hi
  rw [length_bytesOf] at hi
  refine ⟨he, 4 + i, Nat.add_lt_add_left hi 4, ?_⟩
  rw [BitVec.ofNat_add, ← BitVec.add_assoc]
  rfl

/-- Marking an entry stores in the entry. -/
theorem markAccessed_stores (selector : Word) (m : Machine H) :
    Ends (markAccessed selector) m
      (fun _ m' => ∃ host, m' = { m with host := host } ∧
        StoredIn (EntryByte m.toProcessor selector) m.host host) fun _ _ => True := by
  unfold markAccessed
  refine (readDescriptor_finds selector m).bind (fun _ _ _ => trivial) fun d hd => ?_
  rw [ends_ite]
  refine ⟨fun _ => ?_, fun _ => ⟨m.host, rfl, .refl⟩⟩
  rw [ends_bind, ends_view]
  exact (writeLinear_ends _ _ m).mono
    (fun _ m' h => ⟨_, h, storedIn_storeAll (within_markedHalf hd.1 _)⟩) fun _ _ _ => trivial

/-- An entry in memory can be marked. -/
theorem markAccessed_run (hb : Backs A m.host) (hA : ∀ a, EntryByte m.toProcessor selector a → A a)
    (hd : m.farView.descriptor? selector = some d) :
    ∃ host, (markAccessed selector).run m = .ok () { m with host := host } ∧
      StoredIn A m.host host := by
  obtain ⟨hentry, bytes, hbytes, -⟩ := descriptor?_eq_some_iff.1 hd
  rw [markAccessed, run_bind_of_ok (readDescriptor_run hentry hbytes)]
  by_cases ha : (Descriptor.ofBytes bytes).isAccessed
  · rw [ha]
    exact ⟨m.host, rfl, .refl⟩
  · have hw := (within_markedHalf hentry (Descriptor.ofBytes bytes).accessed.high.toNat).mono hA
    simp only [ha]
    exact ⟨_, writeLinear_backed hb hw, storedIn_storeAll hw⟩

/-! ## Frames -/

/-- The linear address of value number `k` of a frame of double words. -/
def NewStack.slotAddress (stack : NewStack) (top : Dword) (k : Nat) : Dword :=
  stack.cache.base + stack.slot .dword top k

/-- An address belongs to some values of a frame. -/
def NewStack.SlotByte (stack : NewStack) (top : Dword) (numbers : List Nat) (a : Dword) : Prop :=
  ∃ k ∈ numbers, Spans (stack.slotAddress top k) 4 a

/-- The values of a frame do not overlap, also when it goes around the end of the stack. -/
theorem NewStack.slots_apart (stack : NewStack) (top : Dword) {k k' : Nat} (hne : k ≠ k')
    (hk : k < 2 ^ 14) (hk' : k' < 2 ^ 14) {a : Dword} (ha : Spans (stack.slotAddress top k) 4 a) :
    ¬Spans (stack.slotAddress top k') 4 a := by
  have hwrap : ∃ v : Width, v ≠ .byte ∧ ∀ offset, stack.wrap offset = v.truncate offset := by
    unfold wrap
    split
    · exact ⟨.dword, by decide, fun offset => (Width.truncate_dword offset).symm⟩
    · exact ⟨.word, by decide, fun _ => rfl⟩
  obtain ⟨v, hv, hwrap⟩ := hwrap
  have hslot (j : Nat) : stack.slotAddress top j
      = stack.cache.base + v.truncate (top + BitVec.ofNat 32 (j * Width.dword.bytes)) :=
    congrArg (stack.cache.base + ·) (hwrap _)
  rw [hslot] at ha ⊢
  exact Ia32.slots_apart hv .dword _ _ hne hk hk' ha

/-- The host after the values of a frame are stored. -/
def storeSlots (stack : NewStack) (top : Dword) (h : H) : List (Dword × Nat) → H
  | [] => h
  | (value, k) :: rest =>
    storeSlots stack top (storeAll h (stack.slotAddress top k) (bytesOf 4 value.toNat)) rest

theorem storeThrough_stores (cache : SegmentCache) (w : Width) (offset value : Dword) (m : Machine H) :
    Ends (storeThrough w cache offset value) m
      (fun _ m' =>
        m' = { m with host := storeAll m.host (cache.base + offset) (bytesOf w.bytes value.toNat) } ∧
          cache.Grants m.toProcessor .write offset w.bytes) fun _ _ => True := by
  rw [storeThrough, ends_bind]
  refine (checkAccess_ends cache true offset w.bytes .write m).mono ?_ fun _ _ _ => trivial
  rintro linear _ ⟨rfl, rfl, hg⟩
  exact (writeLinear_ends _ _ _).mono (fun _ _ h => ⟨h, hg⟩) fun _ _ _ => trivial

/-- Storing a frame checks the place of each value. -/
theorem storeFrame_stores (stack : NewStack) (top : Dword) (values : List (Dword × Nat))
    (m : Machine H) :
    Ends (storeFrame .dword stack top values) m
      (fun _ m' => m' = { m with host := storeSlots stack top m.host values } ∧
        ∀ value ∈ values,
          stack.cache.Grants m.toProcessor .write (stack.slot .dword top value.2) 4)
      fun _ _ => True := by
  induction values generalizing m with
  | nil => exact ⟨rfl, nofun⟩
  | cons value rest ih =>
    obtain ⟨value, k⟩ := value
    rw [storeFrame, ends_bind]
    refine (storeThrough_stores stack.cache .dword _ value m).mono ?_ fun _ _ h => h
    rintro _ _ ⟨rfl, hg⟩
    refine (ih _).mono ?_ fun _ _ h => h
    rintro _ _ ⟨rfl, hrest⟩
    exact ⟨rfl, List.forall_mem_cons.2 ⟨hg, hrest⟩⟩

theorem storedIn_storeSlots (stack : NewStack) (top : Dword) (values : List (Dword × Nat)) (h : H) :
    StoredIn (stack.SlotByte top (values.map Prod.snd)) h (storeSlots stack top h values) := by
  induction values generalizing h with
  | nil => exact .refl
  | cons value rest ih =>
    obtain ⟨value, k⟩ := value
    have hhead : Within (stack.SlotByte top (k :: rest.map Prod.snd)) (stack.slotAddress top k)
        (bytesOf 4 value.toNat).length := fun i hi =>
      ⟨k, List.mem_cons_self, i, by rwa [length_bytesOf] at hi, rfl⟩
    refine (storedIn_storeAll hhead).trans ((ih _).mono fun a ⟨k', hk', ha⟩ => ?_)
    exact ⟨k', List.mem_cons_of_mem k hk', ha⟩

/-- The values of a frame are read back. -/
theorem hostBytes_storeSlots {stack : NewStack} {top : Dword} {h : H} {values : List (Dword × Nat)}
    (hb : Backs A h) (hA : ∀ a, stack.SlotByte top (values.map Prod.snd) a → A a)
    (hd : (values.map Prod.snd).Nodup) (hn : ∀ k ∈ values.map Prod.snd, k < 2 ^ 14)
    {value : Dword} {k : Nat} (hv : (value, k) ∈ values) :
    hostBytes (storeSlots stack top h values) (stack.slotAddress top k) 4
      = .ok (bytesOf 4 value.toNat) := by
  induction values generalizing h with
  | nil => cases hv
  | cons head rest ih =>
    obtain ⟨value', k'⟩ := head
    obtain ⟨hk', hn'⟩ := List.forall_mem_cons.1 hn
    obtain ⟨hfresh, hd'⟩ := List.nodup_cons.1 hd
    have hwithin : Within A (stack.slotAddress top k') (bytesOf 4 value'.toNat).length := by
      intro i hi
      rw [length_bytesOf] at hi
      exact hA _ ⟨k', List.mem_cons_self, i, hi, rfl⟩
    have hA' : ∀ a, stack.SlotByte top (rest.map Prod.snd) a → A a := fun a ⟨j, hj, ha⟩ =>
      hA a ⟨j, List.mem_cons_of_mem k' hj, ha⟩
    have hb' : Backs A (storeAll h (stack.slotAddress top k') (bytesOf 4 value'.toNat)) :=
      hb.of_storedIn (storedIn_storeAll hwithin)
    rcases List.mem_cons.1 hv with heq | hrest
    · cases heq
      -- The values that are stored later lie elsewhere.
      have hlen : (bytesOf 4 value.toNat).length = 4 := length_bytesOf 4 _
      have hstored := hostBytes_storeAll hb hwithin (by rw [hlen]; decide)
      rw [hlen] at hwithin hstored
      refine (hostBytes_of_storedIn hb' (storedIn_storeSlots stack top rest _) hA' hwithin ?_).trans
        hstored
      rintro i hi ⟨j, hj, ha⟩
      have hne : k ≠ j := fun h => hfresh (h ▸ hj)
      exact stack.slots_apart top hne hk' (hn' j hj) ⟨i, hi, rfl⟩ ha
    · exact ih hb' hA' hd' hn' hrest

end Exec

end Ia32
