import Ia32.Proofs.StackFrames

/-!
# Entries that are marked as accessed

A far transfer marks the entry of the segment that it enters.  The mark is one bit of
the entry, and of a code segment nothing that a segment register holds depends on
it.  So in memory that remembers, tables that do not overlap hold the same code
segments after a transfer as before it.
-/

namespace Ia32

open Host Exec

/-! ## Marked descriptors -/

namespace Descriptor

variable (d : Descriptor)

/-- Bits of the upper double word other than the mark stay. -/
theorem high_accessed_and {mask : Dword} (h : 0x100 &&& mask = 0) :
    d.accessed.high &&& mask = d.high &&& mask := by
  rw [accessed, BitVec.and_or_distrib_right, h]
  exact BitVec.or_zero

theorem kind_accessed : d.accessed.kind = d.kind ||| 1 := by
  have hmark : (0x100 : Dword).extractLsb' 8 5 = 1 := by decide
  rw [kind, accessed, BitVec.extractLsb'_or, hmark]
  rfl

theorem isGranular_accessed : d.accessed.isGranular = d.isGranular := by
  rw [isGranular, isGranular, d.high_accessed_and (by decide)]

theorem isPresent_accessed : d.accessed.isPresent = d.isPresent := by
  rw [isPresent, isPresent, d.high_accessed_and (by decide)]

theorem isDefault32_accessed : d.accessed.isDefault32 = d.isDefault32 := by
  rw [isDefault32, isDefault32, d.high_accessed_and (by decide)]

theorem base_accessed : d.accessed.base = d.base := by
  have hlow : d.accessed.high <<< 16 &&& (0x00FF0000 : Dword) = d.high <<< 16 &&& 0x00FF0000 := by
    simp [accessed, BitVec.shiftLeft_or_distrib, BitVec.and_or_distrib_right]
  rw [base, base, hlow, d.high_accessed_and (by decide)]
  rfl

theorem limit_accessed : d.accessed.limit = d.limit := by
  rw [limit, limit, isGranular_accessed, d.high_accessed_and (by decide)]
  rfl

theorem dpl_accessed : d.accessed.dpl = d.dpl := by
  have hlevel : d.accessed.high >>> 13 = d.high >>> 13 := by
    simp [accessed, BitVec.ushiftRight_or_distrib]
  rw [dpl, dpl, hlevel]

/-- What does not look at the lowest bit of the kind is the same of a marked descriptor. -/
theorem kind_accessed_and {mask : BitVec 5} (h : 1 &&& mask = 0) :
    d.accessed.kind &&& mask = d.kind &&& mask := by
  rw [kind_accessed, BitVec.and_or_distrib_right, h]
  exact BitVec.or_zero

theorem isCode_accessed : d.accessed.isCode = d.isCode := by
  rw [isCode, isCode, d.kind_accessed_and (by decide)]

theorem isConforming_accessed : d.accessed.isConforming = d.isConforming := by
  rw [isConforming, isConforming, isCode_accessed, d.kind_accessed_and (by decide)]

/-- A marked code segment is loaded like one that is not marked. -/
theorem ofDescriptor_accessed (selector : Word) (h : d.isCode = true) :
    SegmentCache.ofDescriptor selector d.accessed = .ofDescriptor selector d := by
  have hcode : ∀ kind : BitVec 5, (kind &&& 0x18 == 0x18) = true →
      (kind &&& 0x1D == 0x09) = false := by decide
  have htss : d.isTss32 = false := hcode d.kind h
  have htss' : d.accessed.isTss32 = false := hcode _ (d.isCode_accessed.trans h)
  have hdown : d.accessed.isExpandDown = d.isExpandDown := by
    rw [isExpandDown, isExpandDown, d.kind_accessed_and (by decide)]
  have hread : d.accessed.isReadable = d.isReadable := by
    rw [isReadable, isReadable, d.kind_accessed_and (by decide), d.kind_accessed_and (by decide)]
  have hwrite : d.accessed.isWritableData = d.isWritableData := by
    rw [isWritableData, isWritableData, d.kind_accessed_and (by decide)]
  have hclass : d.accessed.isDataOrNonconforming = d.isDataOrNonconforming := by
    rw [isDataOrNonconforming, isDataOrNonconforming, d.kind_accessed_and (by decide),
      d.kind_accessed_and (by decide)]
  unfold SegmentCache.ofDescriptor
  rw [base_accessed, limit_accessed, isDefault32_accessed, isCode_accessed, dpl_accessed, htss, htss',
    hdown, hread, hwrite, hclass]

end Descriptor

/-! ## Tables after a transfer -/

variable {H : Type} [Host H] {m m' : Machine H} {A B : Dword → Prop} {selector : Word}
  {d : Descriptor}

namespace Exec

/-- Bytes that are read as two groups. -/
theorem hostBytes_append {h : H} {linear : Dword} {n k : Nat} {first second : List Byte}
    (h₁ : hostBytes h linear n = .ok first)
    (h₂ : hostBytes h (linear + BitVec.ofNat 32 n) k = .ok second) :
    hostBytes h linear (n + k) = .ok (first ++ second) := by
  induction n generalizing linear first with
  | zero =>
    cases h₁
    simpa using h₂
  | succ n ih =>
    obtain ⟨b, bs, hb, hbs, rfl⟩ := hostBytes_succ_eq_ok_iff.1 h₁
    rw [← add_one_add_ofNat] at h₂
    rw [Nat.succ_add]
    exact hostBytes_succ_eq_ok_iff.2 ⟨b, bs ++ second, hb, ih hbs h₂, rfl⟩

/-- The first bytes of a group. -/
theorem hostBytes_take {h : H} {linear : Dword} {n k : Nat} {bytes : List Byte}
    (hb : hostBytes h linear (n + k) = .ok bytes) :
    hostBytes h linear n = .ok (bytes.take n) := by
  induction n generalizing linear bytes with
  | zero => rfl
  | succ n ih =>
    rw [Nat.succ_add] at hb
    obtain ⟨b, bs, hhead, htail, rfl⟩ := hostBytes_succ_eq_ok_iff.1 hb
    exact hostBytes_succ_eq_ok_iff.2 ⟨b, bs.take n, hhead, ih htail, rfl⟩

end Exec

/-- The descriptors depend on the tables and on memory alone. -/
theorem Machine.descriptor?_congr (hg : m'.gdtr = m.gdtr) (hl : m'.ldtr = m.ldtr)
    (hh : m'.host = m.host) : m'.farView.descriptor? selector = m.farView.descriptor? selector := by
  have hentry : hasEntry m'.toProcessor selector = hasEntry m.toProcessor selector := by
    unfold hasEntry tableLast
    rw [hg, hl]
  have haddress : entryAddress m'.toProcessor selector = entryAddress m.toProcessor selector := by
    simp only [entryAddress, tableBase, hg, hl]
  ext d
  rw [descriptor?_eq_some_iff, descriptor?_eq_some_iff, hentry, haddress, hh]

/-- The bytes of an entry that is marked: the first half is as before. -/
theorem Descriptor.ofBytes_marked {bytes : List Byte} (hl : bytes.length = 8) :
    ofBytes (bytes.take 4 ++ bytesOf 4 (ofBytes bytes).accessed.high.toNat)
      = (ofBytes bytes).accessed := by
  have hlen : (bytes.take 4).length = 4 := by rw [List.length_take, hl]; rfl
  rw [ofBytes, List.take_left' hlen, List.drop_left' hlen, ofNat_littleEndian_bytesOf 4]
  rfl

namespace Exec

theorem hostBytes_marked {bytes : List Byte} (hb : Backs A m.host)
    (hA : ∀ a, EntryByte m.toProcessor selector a → A a)
    (hentry : hasEntry m.toProcessor selector = true)
    (hold : hostBytes m.host (entryAddress m.toProcessor selector) 8 = .ok bytes) (high : Dword) :
    hostBytes (storeAll m.host (entryAddress m.toProcessor selector + 4) (bytesOf 4 high.toNat))
        (entryAddress m.toProcessor selector) 8
      = .ok (bytes.take 4 ++ bytesOf 4 high.toNat) := by
  have hhalf : Within A (entryAddress m.toProcessor selector + 4) (bytesOf 4 high.toNat).length :=
    (within_markedHalf hentry high.toNat).mono hA
  have hfirst : Within A (entryAddress m.toProcessor selector) 4 := fun i hi =>
    hA _ ⟨hentry, i, by omega, rfl⟩
  have hstored : hostBytes _ _ (bytesOf 4 high.toNat).length = .ok (bytesOf 4 high.toNat) :=
    hostBytes_storeAll hb hhalf (by rw [length_bytesOf]; decide)
  rw [length_bytesOf] at hstored
  refine hostBytes_append (n := 4) (k := 4) ?_ hstored
  refine (hostBytes_of_storedIn hb (storedIn_storeAll (within_spans _ _)) (fun a => hhalf.of_spans)
    hfirst ?_).trans (hostBytes_take (n := 4) (k := 4) hold)
  rintro i hi ⟨j, hj, heq⟩
  rw [length_bytesOf] at hj
  bv_omega

end Exec

/-- A descriptor is as before, or it is marked as accessed. -/
def Descriptor.KeptIn (d : Descriptor) (m : Machine H) (selector : Word) : Prop :=
  m.farView.descriptor? selector = some d ∨ m.farView.descriptor? selector = some d.accessed

/-- Stores that do not meet an entry leave its descriptor. -/
theorem Machine.descriptor?_of_storedIn (hb : Backs A m.host) (hs : StoredIn B m.host m'.host)
    (hBA : ∀ a, B a → A a) (hA : ∀ a, EntryByte m.toProcessor selector a → A a)
    (hn : ∀ a, EntryByte m.toProcessor selector a → ¬B a) (hg : m'.gdtr = m.gdtr)
    (hl : m'.ldtr = m.ldtr) (hd : m.farView.descriptor? selector = some d) :
    m'.farView.descriptor? selector = some d := by
  obtain ⟨hentry, bytes, hbytes, rfl⟩ := descriptor?_eq_some_iff.1 hd
  have hstored : { m with host := m'.host }.farView.descriptor? selector = some (.ofBytes bytes) := by
    refine descriptor?_eq_some_iff.2 ⟨hentry, bytes, ?_, rfl⟩
    have hbyte (i : Nat) (hi : i < 8) :
        EntryByte m.toProcessor selector (entryAddress m.toProcessor selector + BitVec.ofNat 32 i) :=
      ⟨hentry, i, hi, rfl⟩
    exact (hostBytes_of_storedIn hb hs hBA (fun i hi => hA _ (hbyte i hi))
      fun i hi => hn _ (hbyte i hi)).trans hbytes
  exact (Machine.descriptor?_congr (m := { m with host := m'.host }) hg hl rfl).trans hstored

namespace Exec

/-- Marking an entry keeps every descriptor. -/
theorem markAccessed_keeps (selector : Word) (hb : Backs A m.host)
    (hA : ∀ selector a, EntryByte m.toProcessor selector a → A a) (ht : TablesApart m.toProcessor) :
    Ends (markAccessed selector) m
      (fun _ m' => ∃ host, m' = { m with host := host } ∧
        StoredIn (EntryByte m.toProcessor selector) m.host host ∧
        ∀ selector' d, m.farView.descriptor? selector' = some d → d.KeptIn m' selector')
      fun _ _ => True := by
  unfold markAccessed
  refine (readDescriptor_finds selector m).bind (fun _ _ _ => trivial) fun marked hmarked => ?_
  obtain ⟨hentry, old, hold, rfl⟩ := hmarked
  rw [ends_ite]
  refine ⟨fun _ => ?_, fun _ => ⟨m.host, rfl, .refl, fun _ _ => .inl⟩⟩
  rw [ends_bind, ends_view]
  refine (writeLinear_ends _ _ m).mono ?_ fun _ _ _ => trivial
  rintro _ _ rfl
  have hwithin := within_markedHalf hentry (Descriptor.ofBytes old).accessed.high.toNat
  have hstored : StoredIn (EntryByte m.toProcessor selector) m.host _ := storedIn_storeAll hwithin
  refine ⟨_, rfl, hstored, fun selector' d hd => ?_⟩
  by_cases hsame : entryAddress m.toProcessor selector' = entryAddress m.toProcessor selector
  · obtain ⟨hentry', bytes, hbytes, rfl⟩ := descriptor?_eq_some_iff.1 hd
    rw [hsame, hold] at hbytes
    cases hbytes
    right
    refine descriptor?_eq_some_iff.2 ⟨hentry', _, ?_,
      (Descriptor.ofBytes_marked (length_hostBytes hold)).symm⟩
    exact (congrArg (hostBytes _ · 8) hsame).trans (hostBytes_marked hb (hA selector) hentry hold _)
  · left
    refine Machine.descriptor?_of_storedIn hb hstored (hA selector) (hA selector') ?_ rfl rfl hd
    intro a ha' ha
    by_cases hlocal : isLocal selector' = isLocal selector
    · exact hsame (entryByte_unique hlocal ha' ha)
    · exact ht _ _ a hlocal ha' ha

end Exec

end Ia32
