import Ia32.Snapshot

/-!
# Snapshots read back

A snapshot of a processor is read back as that processor, with the flag that is
always one set.  A record whose names are all different gives its members back in
their order, whatever the members are; the rest is one lemma for each kind of
member.
-/

namespace Ia32

namespace Json

/-! ## Records -/

/-- A member with another name is passed over. -/
theorem membersNamed_cons_of_ne {name name' : String} (h : name' ≠ name) (value : Json)
    (members : List (Option String × Json)) :
    membersNamed name ((some name', value) :: members) = membersNamed name members := by
  simp [membersNamed, h]

/-- No member is found under a name that none has. -/
theorem membersNamed_eq_nil {name : String} {members : List (String × Json)}
    (h : name ∉ members.map (·.1)) :
    membersNamed name (members.map fun (name, value) => (some name, value)) = [] := by
  simp only [membersNamed, List.map_eq_nil_iff, List.filter_eq_nil_iff, List.mem_map]
  rintro _ ⟨⟨name', value⟩, hmem, rfl⟩ heq
  obtain rfl : name' = name := by simpa using heq
  exact h (List.mem_map_of_mem hmem)

/-- The members of a record are found by their names. -/
theorem fields?_record {names : List String} {values : List Json} (hnames : names.Nodup)
    (hlength : names.length = values.length) :
    (record (names.zip values)).fields? names = some (values.map some) := by
  simp only [record, fields?, Option.some.injEq]
  induction names generalizing values with
  | nil =>
    obtain rfl : values = [] := List.length_eq_zero_iff.1 hlength.symm
    rfl
  | cons name names ih =>
    obtain ⟨value, values, rfl⟩ := List.exists_cons_of_length_eq_add_one hlength.symm
    obtain ⟨hnotMem, hnames⟩ := List.nodup_cons.1 hnames
    have hlength := Nat.succ.inj hlength
    have hfirst : name ∉ (names.zip values).map (·.1) := fun h =>
      hnotMem (List.map_fst_zip (Nat.le_of_eq hlength) ▸ h)
    rw [List.zip_cons_cons, List.map_cons, List.map_cons, List.map_cons]
    congr 1
    · have hsame : ∀ members, membersNamed name ((some name, value) :: members) =
          value :: membersNamed name members := fun members => by simp [membersNamed]
      rw [hsame, membersNamed_eq_nil hfirst]
      rfl
    · rw [← ih hnames hlength]
      refine List.map_congr_left fun other hother => ?_
      have hne : name ≠ other := fun heq => hnotMem (heq ▸ hother)
      rw [membersNamed_cons_of_ne hne]

/-- What is read back item by item is read back as a list. -/
theorem mapM_map_of_leftInverse {α β γ : Type} {write : α → β} {read : β → Option γ} {f : α → γ}
    (h : ∀ a, read (write a) = some (f a)) (items : List α) :
    (items.map write).mapM read = some (items.map f) := by
  induction items with
  | nil => rfl
  | cons a rest ih => simp [h, ih]

/-- A record with all its members is read as the list of them. -/
theorem allFields?_record {names : List String} {values : List Json} (hnames : names.Nodup)
    (hlength : names.length = values.length) :
    (record (names.zip values)).allFields? names = some values := by
  have hsome (value : Json) : id (some value) = some (id value) := rfl
  have hread := mapM_map_of_leftInverse hsome values
  rw [allFields?, fields?_record hnames hlength]
  simpa using hread

/-! ## Values -/

/-- A list of the right length is read back as a vector. -/
theorem vector?_array {α : Type} {n : Nat} {write : α → Json} {read : Json → Option α}
    (h : ∀ a, read (write a) = some a) (v : Vector α n) :
    (Json.array (v.toList.map write)).vector? n read = some v := by
  have hread : (v.toList.map write).mapM read = some v.toList := by
    simpa using mapM_map_of_leftInverse (f := id) h v.toList
  rw [vector?, hread]
  simp [Vector.toList]

end Json

namespace Snapshot

@[simp] theorem bits?_ofBits {w : Nat} (value : BitVec w) :
    (ofBits value).bits? w = some value := by
  have hbound : (value.toNat : Int) < (Nat.pow 2 w : Nat) := Int.ofNat_lt.2 value.isLt
  have hread : Json.natBelow? (Nat.pow 2 w) (ofBits value) = some value.toNat := by
    rw [ofBits, Json.nat, Json.natBelow?, decide_eq_true hbound,
      decide_eq_true (Int.natCast_nonneg _)]
    rfl
  rw [Json.bits?, hread, Option.map_some, BitVec.ofNat_toNat, BitVec.setWidth_eq]

@[simp] theorem bool?_bool (b : Bool) : (Json.bool b).bool? = some b := rfl

/-! ## The parts of a processor -/

section Records

-- How bit vectors are written is left open here, so that checking a proof does not compute the
-- bounds of their widths.
variable {write : {w : Nat} → BitVec w → Json}
  (hread : ∀ {w : Nat} (value : BitVec w), (write value).bits? w = some value)

include hread

/-- A record is read back field by field, whatever writes the fields, as long as each is read
back. -/
theorem segment?_record (s : SegmentCache) :
    segment? (.record (segmentNames.zip
      [write s.selector, write s.base, write s.firstByte, write s.lastByte, .bool s.is32,
        .bool s.readable, .bool s.writable, .bool s.executable, .bool s.dataOrNonconforming,
        .bool s.isNull, write s.dpl, write s.pl, .bool s.tssIs32])) = some s := by
  rw [segment?, Json.allFields?_record (by decide) rfl]
  dsimp only [Option.bind_eq_bind, Option.bind_some]
  -- The thirteen reads are nested, and `simp` would go through the inner ones twice at each.
  rw [hread s.selector, hread s.base, hread s.firstByte, hread s.lastByte, hread s.dpl, hread s.pl]
  rfl

theorem table?_record (t : DescriptorTable) :
    table? (.record (tableNames.zip [write t.base, write t.limit])) = some t := by
  rw [table?, Json.allFields?_record (by decide) rfl]
  simp only [Option.bind_eq_bind, Option.bind_some, hread]

theorem extended?_record (x : Extended) :
    extended? (.record (extendedNames.zip
      [.bool x.sign, write x.exponent, write x.significand])) = some x := by
  rw [extended?, Json.allFields?_record (by decide) rfl]
  simp only [Option.bind_eq_bind, Option.bind_some, hread, bool?_bool]

end Records

/-- A segment that is written is read back. -/
@[simp] theorem segment?_ofSegment (s : SegmentCache) : segment? (ofSegment s) = some s :=
  segment?_record bits?_ofBits s

@[simp] theorem table?_ofTable (t : DescriptorTable) : table? (ofTable t) = some t :=
  table?_record bits?_ofBits t

@[simp] theorem extended?_ofExtended (x : Extended) : extended? (ofExtended x) = some x :=
  extended?_record bits?_ofBits x

@[simp] theorem segments?_ofSegments (s : Segments) : segments? (ofSegments s) = some s := by
  have hread := Json.vector?_array segment?_ofSegment #v[s.es, s.cs, s.ss, s.ds, s.fs, s.gs]
  have hall : ofSegments s =
      .array (#v[s.es, s.cs, s.ss, s.ds, s.fs, s.gs].toList.map ofSegment) := rfl
  rw [segments?, hall, hread]
  rfl

@[simp] theorem fpu?_ofFpu (f : Fpu) : fpu? (ofFpu f) = some f := by
  rw [fpu?, ofFpu, Json.allFields?_record (by decide) rfl]
  simp only [fpuMembers, Option.bind_eq_bind, Option.bind_some,
    Json.vector?_array extended?_ofExtended, bits?_ofBits]

/-! ## The processor -/

/-- A snapshot is read back as the processor it was taken of, with the flag that is always one. -/
theorem load?_save (p : Processor) :
    load? (save p) = some { p with eflags := p.eflags ||| Flags.reserved } := by
  rw [load?, save, Json.allFields?_record (by decide) rfl]
  simp only [processorMembers, Option.bind_eq_bind, Option.bind_some,
    Json.vector?_array bits?_ofBits, bits?_ofBits, segments?_ofSegments, table?_ofTable,
    segment?_ofSegment, fpu?_ofFpu]

end Snapshot

end Ia32
