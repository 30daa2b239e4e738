import Mathlib.Algebra.Group.Nat.Defs
import Ia32.Proofs.PortAccesses

/-!
# Memory that remembers

A host may answer a read as it likes.  `Host.Backs` says that it is memory over a
region: it accepts stores there, and reads back the last byte that was stored.
Outside the region nothing is said.

Bytes that are stored as a group are read back as a group, and a store leaves
the bytes of the region alone that it does not write.
-/

namespace Ia32

open Host Exec

variable {H : Type}

namespace Host

variable [Host H]

/-! ## Regions -/

/-- Some bytes from an address on belong to a region. -/
def Within (A : Dword → Prop) (linear : Dword) (n : Nat) : Prop :=
  ∀ i < n, A (linear + BitVec.ofNat 32 i)

/-- An address is one of some from an address on. -/
def Spans (linear : Dword) (n : Nat) (a : Dword) : Prop := ∃ i < n, a = linear + BitVec.ofNat 32 i

theorem within_spans (linear : Dword) (n : Nat) : Within (Spans linear n) linear n :=
  fun i hi => ⟨i, hi, rfl⟩

theorem Within.mono {A B : Dword → Prop} {linear : Dword} {n : Nat} (h : Within A linear n)
    (hAB : ∀ a, A a → B a) : Within B linear n :=
  fun i hi => hAB _ (h i hi)

theorem Within.of_spans {A : Dword → Prop} {linear : Dword} {n : Nat} (h : Within A linear n)
    {a : Dword} (ha : Spans linear n a) : A a := by
  obtain ⟨i, hi, rfl⟩ := ha
  exact h i hi

theorem add_one_add_ofNat (linear : Dword) (i : Nat) :
    linear + 1 + BitVec.ofNat 32 i = linear + BitVec.ofNat 32 (i + 1) := by
  rw [Nat.add_comm i 1, BitVec.ofNat_add, ← BitVec.add_assoc]
  rfl

theorem Within.head {A : Dword → Prop} {linear : Dword} {n : Nat} (h : Within A linear (n + 1)) :
    A linear := by
  simpa using h 0 (Nat.zero_lt_succ n)

theorem Within.tail {A : Dword → Prop} {linear : Dword} {n : Nat} (h : Within A linear (n + 1)) :
    Within A (linear + 1) n := by
  intro i hi
  rw [add_one_add_ofNat]
  exact h (i + 1) (Nat.succ_lt_succ hi)

/-- A host comes out of another one by stores of single bytes of a region. -/
inductive StoredIn (A : Dword → Prop) (h : H) : H → Prop where
  | refl : StoredIn A h h
  | store {h' : H} {a : Dword} (b : Byte) :
    StoredIn A h h' →
    A a →
    StoredIn A h (Host.store h' a b)

theorem StoredIn.trans {A : Dword → Prop} {h h' h'' : H} (first : StoredIn A h h')
    (second : StoredIn A h' h'') : StoredIn A h h'' := by
  induction second with
  | refl => exact first
  | store b _ ha ih => exact .store b ih ha

theorem StoredIn.mono {A B : Dword → Prop} {h h' : H} (hs : StoredIn A h h')
    (hAB : ∀ a, A a → B a) : StoredIn B h h' := by
  induction hs with
  | refl => exact .refl
  | store b _ ha ih => exact .store b ih (hAB _ ha)

/-- A group of bytes that lies in a region. -/
theorem storedIn_storeAll {A : Dword → Prop} {bytes : List Byte} {h : H} {linear : Dword}
    (hw : Within A linear bytes.length) : StoredIn A h (storeAll h linear bytes) := by
  induction bytes generalizing h linear with
  | nil => exact .refl
  | cons b bs ih => exact .trans (.store b .refl hw.head) (ih hw.tail)

/-- Over a region a host is memory, now and after stores to the region. -/
structure Backs (A : Dword → Prop) (h : H) : Prop where
  accepts : ∀ {h'}, StoredIn A h h' → ∀ {a}, A a → Host.storeFault h' a = none
  range : ∀ {h'}, StoredIn A h h' → ∀ {linear n}, Within A linear n →
    Host.checkRange h' linear n = none
  read : ∀ {h'}, StoredIn A h h' → ∀ {a x}, A a → A x → ∀ b,
    Host.read (Host.store h' a b) x = if x = a then .ok b else Host.read h' x

namespace Backs

variable {A : Dword → Prop} {h h' : H} {bytes : List Byte} {linear x : Dword}

/-- A region stays memory. -/
theorem of_storedIn (hb : Backs A h) (hs : StoredIn A h h') : Backs A h' where
  accepts hs' := hb.accepts (hs.trans hs')
  range hs' := hb.range (hs.trans hs')
  read hs' := hb.read (hs.trans hs')

theorem passesEach (hb : Backs A h) (hw : Within A linear bytes.length) :
    PassesEach h linear bytes := by
  induction bytes generalizing h linear with
  | nil => trivial
  | cons b bs ih =>
    have hstored : StoredIn A h (Host.store h linear b) := .store b .refl hw.head
    exact ⟨hb.accepts .refl hw.head, ih (hb.of_storedIn hstored) hw.tail⟩

/-! ## Reading after a store -/

/-- Stores leave the bytes of the region alone that they do not write. -/
theorem read_of_storedIn (hb : Backs A h) {B : Dword → Prop} (hs : StoredIn B h h')
    (hBA : ∀ a, B a → A a) (hx : A x) (hn : ¬B x) : Host.read h' x = Host.read h x := by
  induction hs with
  | refl => rfl
  | @store h'' a b hs ha ih =>
    have hne : x ≠ a := fun h => hn (h ▸ ha)
    rw [hb.read (hs.mono hBA) (hBA a ha) hx, if_neg hne, ih]

/-- What can be read can be read after a store. -/
theorem exists_read_of_storedIn (hb : Backs A h) (hs : StoredIn A h h') (hx : A x) {c : Byte}
    (hr : Host.read h x = .ok c) : ∃ c', Host.read h' x = .ok c' := by
  induction hs with
  | refl => exact ⟨c, hr⟩
  | store b hs ha ih =>
    rw [hb.read hs ha hx]
    split
    · exact ⟨b, rfl⟩
    · exact ih

theorem read_storeAll_of_ne (hb : Backs A h) (hw : Within A linear bytes.length) (hx : A x)
    (hne : ∀ i < bytes.length, x ≠ linear + BitVec.ofNat 32 i) :
    Host.read (storeAll h linear bytes) x = Host.read h x :=
  hb.read_of_storedIn (storedIn_storeAll (within_spans _ _)) (fun _ => hw.of_spans) hx
    fun ⟨i, hi, h⟩ => hne i hi h

/-- A byte that is stored in a group is read back. -/
theorem read_storeAll (hb : Backs A h) (hw : Within A linear bytes.length)
    (hlen : bytes.length ≤ 2 ^ 32) {i : Nat} (hi : i < bytes.length) :
    Host.read (storeAll h linear bytes) (linear + BitVec.ofNat 32 i) = .ok bytes[i] := by
  induction bytes generalizing h linear i with
  | nil => cases hi
  | cons b bs ih =>
    have hb' : Backs A (Host.store h linear b) := hb.of_storedIn (.store b .refl hw.head)
    cases i with
    | zero =>
      have hzero : linear + BitVec.ofNat 32 0 = linear := BitVec.add_zero linear
      -- The bytes that follow lie at other addresses, as long as they do not go all around.
      have hne : ∀ j < bs.length, linear ≠ linear + 1 + BitVec.ofNat 32 j := by
        intro j hj
        simp only [List.length_cons] at hlen
        bv_omega
      rw [hzero, storeAll, hb'.read_storeAll_of_ne hw.tail hw.head hne,
        hb.read .refl hw.head hw.head, if_pos rfl]
      rfl
    | succ i =>
      rw [storeAll, ← add_one_add_ofNat]
      exact ih hb' hw.tail (Nat.le_of_succ_le hlen) (Nat.lt_of_succ_lt_succ hi)

end Backs

end Host

/-! ## Groups of bytes -/

namespace Exec

variable [Host H] {A : Dword → Prop} {h h' : H} {bytes : List Byte} {linear : Dword}

/-- Bytes that can be read one by one can be read as a group. -/
theorem hostBytes_of_read
    (hr : ∀ i (hi : i < bytes.length), Host.read h (linear + BitVec.ofNat 32 i) = .ok bytes[i]) :
    hostBytes h linear bytes.length = .ok bytes := by
  induction bytes generalizing linear with
  | nil => rfl
  | cons b bs ih =>
    have hhead : Host.read h linear = .ok b := by simpa using hr 0 (Nat.zero_lt_succ _)
    have htail : hostBytes h (linear + 1) bs.length = .ok bs := by
      refine ih fun i hi => ?_
      rw [add_one_add_ofNat]
      exact hr (i + 1) (Nat.succ_lt_succ hi)
    exact hostBytes_succ_eq_ok_iff.2 ⟨b, bs, hhead, htail, rfl⟩

/-- A group of bytes depends on nothing but the bytes. -/
theorem hostBytes_congr {n : Nat}
    (hr : ∀ i < n, Host.read h' (linear + BitVec.ofNat 32 i)
      = Host.read h (linear + BitVec.ofNat 32 i)) :
    hostBytes h' linear n = hostBytes h linear n := by
  induction n generalizing linear with
  | zero => rfl
  | succ n ih =>
    have hhead : Host.read h' linear = Host.read h linear := by
      simpa using hr 0 (Nat.zero_lt_succ n)
    have htail : hostBytes h' (linear + 1) n = hostBytes h (linear + 1) n := by
      refine ih fun i hi => ?_
      rw [add_one_add_ofNat]
      exact hr (i + 1) (Nat.succ_lt_succ hi)
    rw [hostBytes, hostBytes, hhead, htail]

/-- The bytes of a group are read one by one. -/
theorem read_getElem_of_hostBytes {n : Nat} (hr : hostBytes h linear n = .ok bytes) {i : Nat}
    (hi : i < bytes.length) : Host.read h (linear + BitVec.ofNat 32 i) = .ok bytes[i] := by
  induction n generalizing linear bytes i with
  | zero =>
    cases hr
    cases hi
  | succ n ih =>
    obtain ⟨b, bs, hhead, htail, rfl⟩ := hostBytes_succ_eq_ok_iff.1 hr
    cases i with
    | zero => simpa using hhead
    | succ i =>
      rw [← add_one_add_ofNat]
      exact ih htail (Nat.lt_of_succ_lt_succ hi)

theorem read_of_hostBytes {n : Nat} (hr : hostBytes h linear n = .ok bytes) {i : Nat} (hi : i < n) :
    ∃ b, Host.read h (linear + BitVec.ofNat 32 i) = .ok b :=
  ⟨_, read_getElem_of_hostBytes hr ((length_hostBytes hr).symm ▸ hi)⟩

/-- Bytes that can all be read can be read as a group. -/
theorem exists_hostBytes {n : Nat}
    (hr : ∀ i < n, ∃ b, Host.read h (linear + BitVec.ofNat 32 i) = .ok b) :
    ∃ bytes, hostBytes h linear n = .ok bytes := by
  induction n generalizing linear with
  | zero => exact ⟨[], rfl⟩
  | succ n ih =>
    obtain ⟨b, hhead⟩ := hr 0 (Nat.zero_lt_succ n)
    obtain ⟨bs, htail⟩ : ∃ bs, hostBytes h (linear + 1) n = .ok bs := by
      refine ih fun i hi => ?_
      rw [add_one_add_ofNat]
      exact hr (i + 1) (Nat.succ_lt_succ hi)
    exact ⟨b :: bs, hostBytes_succ_eq_ok_iff.2 ⟨b, bs, by simpa using hhead, htail, rfl⟩⟩

/-- A group that stores do not meet is read as before. -/
theorem hostBytes_of_storedIn (hb : Backs A h) {B : Dword → Prop} (hs : StoredIn B h h')
    (hBA : ∀ a, B a → A a) {n : Nat} (hw : Within A linear n)
    (hn : ∀ i < n, ¬B (linear + BitVec.ofNat 32 i)) :
    hostBytes h' linear n = hostBytes h linear n :=
  hostBytes_congr fun i hi => hb.read_of_storedIn hs hBA (hw i hi) (hn i hi)

/-- A group that can be read can be read after stores. -/
theorem exists_hostBytes_of_storedIn (hb : Backs A h) (hs : StoredIn A h h') {n : Nat}
    (hw : Within A linear n) (hr : hostBytes h linear n = .ok bytes) :
    ∃ bytes', hostBytes h' linear n = .ok bytes' := by
  refine exists_hostBytes fun i hi => ?_
  obtain ⟨b, hread⟩ := read_of_hostBytes hr hi
  exact hb.exists_read_of_storedIn hs (hw i hi) hread

/-- A group that is stored is read back. -/
theorem hostBytes_storeAll (hb : Backs A h) (hw : Within A linear bytes.length)
    (hlen : bytes.length ≤ 2 ^ 32) :
    hostBytes (storeAll h linear bytes) linear bytes.length = .ok bytes :=
  hostBytes_of_read fun _ hi => hb.read_storeAll hw hlen hi

/-! ## Programs that succeed -/

variable {m : Machine H}

/-- A store that the host does not refuse succeeds. -/
theorem writeLinear_accepted (ha : ¬Refuses m.host linear bytes) :
    (writeLinear linear bytes).run m
      = .ok () { m with host := storeAll m.host linear bytes } := by
  refine Ends.run_eq ?_
  refine ((writeLinear_ends linear bytes m).and (writeLinear_refused linear bytes m)).mono ?_ ?_
  · rintro _ m' ⟨rfl, -⟩
    exact ⟨rfl, rfl⟩
  · rintro f m' ⟨-, hr⟩
    exact ha hr

theorem not_refuses_of_backs (hb : Backs A h) (hw : Within A linear bytes.length) :
    ¬Refuses h linear bytes := by
  rintro (hr | hp)
  · exact hr (hb.range .refl hw)
  · exact hp (hb.passesEach hw)

/-- A store to memory succeeds. -/
theorem writeLinear_backed (hb : Backs A m.host) (hw : Within A linear bytes.length) :
    (writeLinear linear bytes).run m
      = .ok () { m with host := storeAll m.host linear bytes } :=
  writeLinear_accepted (not_refuses_of_backs hb hw)

/-- A read of bytes that can be read succeeds. -/
theorem readLinear_of_hostBytes {n : Nat} (hr : hostBytes m.host linear n = .ok bytes) :
    (readLinear linear n).run m = .ok bytes m := by
  have hget : (get : Exec H (Machine H)).run m = .ok m m := rfl
  rw [readLinear, run_bind_of_ok hget, hr]
  rfl

variable {seg : Seg} {offset : Dword}

omit [Host H] in
theorem linearOf_of_grants {access : Access} {len : Nat}
    (hg : (m.segs.get seg).Grants m.toProcessor access offset len) :
    (linearOf seg offset len access).run m = .ok ((m.segs.get seg).base + offset) m := by
  refine Ends.run_eq ?_
  rw [linearOf, ends_bind, ends_view]
  exact (checkAccess_of_grants hg _).mono (fun _ _ h => ⟨h.2, h.1⟩) fun _ _ h => h

theorem storeBytes_accepted
    (hg : (m.segs.get seg).Grants m.toProcessor .write offset bytes.length)
    (ha : ¬Refuses m.host ((m.segs.get seg).base + offset) bytes) :
    (storeBytes seg offset bytes).run m
      = .ok () { m with host := storeAll m.host ((m.segs.get seg).base + offset) bytes } := by
  rw [storeBytes, run_bind_of_ok (linearOf_of_grants hg)]
  exact writeLinear_accepted ha

theorem storeBytes_backed
    (hg : (m.segs.get seg).Grants m.toProcessor .write offset bytes.length)
    (hb : Backs A m.host) (hw : Within A ((m.segs.get seg).base + offset) bytes.length) :
    (storeBytes seg offset bytes).run m
      = .ok () { m with host := storeAll m.host ((m.segs.get seg).base + offset) bytes } :=
  storeBytes_accepted hg (not_refuses_of_backs hb hw)

theorem loadBytes_of_grants {n : Nat} (hg : (m.segs.get seg).Grants m.toProcessor .read offset n)
    (hr : hostBytes m.host ((m.segs.get seg).base + offset) n = .ok bytes) :
    (loadBytes seg offset n).run m = .ok bytes m := by
  rw [loadBytes, run_bind_of_ok (linearOf_of_grants hg)]
  exact readLinear_of_hostBytes hr

/-- What a load looks at: the segment grants it, and the bytes can be read. -/
theorem value?_load_eq_some_iff {w : Width} {seg : Seg} {offset value : Dword} {m : Machine H} :
    value? (load w seg offset) m = some value ↔
      (m.segs.get seg).Grants m.toProcessor .read offset w.bytes ∧
        ∃ bytes, hostBytes m.host ((m.segs.get seg).base + offset) w.bytes = .ok bytes ∧
          BitVec.ofNat 32 (littleEndian bytes) = value := by
  rw [load, value?_map, Option.map_eq_some_iff]
  constructor
  · rintro ⟨bytes, hbytes, rfl⟩
    have hrun := (loadBytes_observes seg offset w.bytes).run_of_value hbytes
    rw [loadBytes] at hrun
    obtain ⟨linear, m₁, hlinear, hread⟩ := run_bind_eq_ok_iff.mp hrun
    obtain ⟨rfl, rfl, hgrants⟩ := (linearOf_ends ..).of_ok hlinear
    have hvalue := value?_of_ok hread
    rw [value?_readLinear] at hvalue
    refine ⟨hgrants, bytes, ?_, rfl⟩
    cases hbytes : hostBytes m₁.host ((m₁.segs.get seg).base + offset) w.bytes with
    | ok bytes' => simpa [hbytes, Except.toOption] using hvalue
    | error f => simp [hbytes, Except.toOption] at hvalue
  · rintro ⟨hgrants, bytes, hbytes, rfl⟩
    exact ⟨bytes, value?_of_ok (loadBytes_of_grants hgrants hbytes), rfl⟩

end Exec

/-! ## Array memory -/

namespace Ram

variable {m m' : Ram} {a : Dword}

theorem faultAt_poke (m : Ram) (a : Dword) (b : Byte) : (m.poke a b).faultAt = m.faultAt := by
  unfold poke
  split <;> rfl

theorem size_poke (m : Ram) (a : Dword) (b : Byte) : (m.poke a b).bytes.size = m.bytes.size := by
  unfold poke
  split
  · exact Array.size_set _
  · rfl

/-- A byte of the block is read back, and the others stay. -/
theorem peek_poke (ha : a.toNat < m.bytes.size) (b : Byte) (x : Dword) :
    (m.poke a b).peek x = if x = a then b else m.peek x := by
  have hpoke : (m.poke a b).bytes = m.bytes.set a.toNat ⟨b⟩ := by rw [poke, dif_pos ha]
  by_cases hx : x.toNat < m.bytes.size
  · have hx' : x.toNat < (m.poke a b).bytes.size := by rw [size_poke]; exact hx
    rw [peek, dif_pos hx', peek, dif_pos hx]
    have hset : x.toNat < (m.bytes.set a.toNat ⟨b⟩).size := hpoke ▸ hx'
    have hget : (m.bytes.set a.toNat ⟨b⟩)[x.toNat]
        = if a.toNat = x.toNat then ⟨b⟩ else m.bytes[x.toNat] := Array.getElem_set ..
    simp only [hpoke, hget, BitVec.toNat_inj, eq_comm (a := a)]
    split <;> rfl
  · have hx' : ¬x.toNat < (m.poke a b).bytes.size := by rw [size_poke]; exact hx
    have hne : x ≠ a := fun h => hx (h ▸ ha)
    rw [peek, dif_neg hx', peek, dif_neg hx, if_neg hne]

/-- Stores do not change where the block ends and what faults. -/
theorem same_of_storedIn {A : Dword → Prop} (hs : StoredIn A m m') :
    m'.bytes.size = m.bytes.size ∧ m'.faultAt = m.faultAt := by
  induction hs with
  | refl => exact ⟨rfl, rfl⟩
  | store b _ _ ih => exact ⟨(size_poke ..).trans ih.1, (faultAt_poke ..).trans ih.2⟩

/-- Where nothing faults, a block of bytes is memory as far as it goes. -/
theorem backs (hf : m.faultAt = none) : Backs (fun a => a.toNat < m.bytes.size) m where
  accepts {m'} hs a _ := by
    have hf' : m'.faultAt = none := (same_of_storedIn hs).2.trans hf
    simp only [Host.storeFault, hf']
    rfl
  range {m'} hs linear n _ := by
    have hf' : m'.faultAt = none := (same_of_storedIn hs).2.trans hf
    simp only [Host.checkRange, hf']
  read {m'} hs a x ha _ b := by
    have hf' : m'.faultAt = none := (same_of_storedIn hs).2.trans hf
    have hread : ∀ m'' : Ram, m''.faultAt = none → Host.read m'' x = .ok (m''.peek x) := by
      intro m'' h''
      simp only [Host.read, h'']
      rfl
    have ha' : a.toNat < m'.bytes.size := (same_of_storedIn hs).1 ▸ ha
    have hpoke : Host.read (m'.poke a b) x = .ok ((m'.poke a b).peek x) :=
      hread _ ((faultAt_poke ..).trans hf')
    rw [hread _ hf']
    refine hpoke.trans ?_
    rw [peek_poke ha']
    split <;> rfl

end Ram

end Ia32
