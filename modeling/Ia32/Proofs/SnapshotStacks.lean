import Ia32.Host.Ram
import Ia32.Proofs.SavedState
import Ia32.Proofs.SnapshotRoundTrip

/-!
# Register stacks in snapshots

The top of the register stack has three bits, and the status has no bits in the place
where the status word shows the top.  A status word that is loaded keeps to this, since
it is cut into the two.  A snapshot has both of them as numbers, and each is loaded as it
is when it fits its word.  So a snapshot may hold a top beyond the eight registers or a
status with bits of the top, and then the status word of the machine that has loaded it
shows neither.
-/

namespace Ia32

/-! ## Status words -/

namespace Fpu

variable {f : Fpu}

theorem intact_setStatusWord (f : Fpu) (word : Word) : (f.setStatusWord word).Intact := by
  refine ⟨?_, and_not_and_self word Status.top⟩
  have hlt := (word.extractLsb' 11 3).isLt
  rw [BitVec.le_def]
  simp only [setStatusWord, BitVec.toNat_setWidth]
  have hle : (word.extractLsb' 11 3).toNat % 2 ^ 8 ≤ (word.extractLsb' 11 3).toNat := Nat.mod_le _ _
  change _ ≤ 7
  omega

/-- The status word shows the top of the stack in its place, and the status elsewhere. -/
def ShowsStack (f : Fpu) : Prop :=
  (f.statusWord.extractLsb' 11 3).setWidth 8 = f.top ∧ f.statusWord &&& ~~~Status.top = f.status

instance (f : Fpu) : Decidable f.ShowsStack := inferInstanceAs (Decidable (_ ∧ _))

theorem showsStack_iff : f.ShowsStack ↔ f.Intact := by
  have hload : f.ShowsStack ↔ f.setStatusWord f.statusWord = f := by
    constructor
    · rintro ⟨htop, hstatus⟩
      rw [setStatusWord, htop, hstatus]
    · intro h
      exact ⟨congrArg Fpu.top h, congrArg Fpu.status h⟩
  rw [hload]
  exact ⟨fun h => h ▸ intact_setStatusWord f _, setStatusWord_statusWord⟩

end Fpu

/-! ## Members -/

namespace Json

/-- The member of a record with a name.  An array holds it at the place of its name. -/
def recordMember? (names : List String) (name : String) : Json → Option Json
  | .object members => (membersNamed name members).getLast?
  | .array items => items[names.idxOf name]?
  | _ => none

theorem mapM_id_eq_some {α : Type} {options : List (Option α)} {values : List α}
    (h : options.mapM id = some values) : options = values.map some := by
  induction options generalizing values with
  | nil =>
    cases h
    rfl
  | cons option rest ih =>
    simp only [List.mapM_cons, id_eq, Option.bind_eq_bind, Option.bind_eq_some_iff] at h
    obtain ⟨value, rfl, values, hrest, hpure⟩ := h
    cases hpure
    rw [List.map_cons, ← ih hrest]

/-- What is read of a record is its members in the order of their names. -/
theorem recordMember?_of_allFields? {names : List String} {value : Json} {values : List Json}
    (h : value.allFields? names = some values) {name : String} (hname : name ∈ names) :
    value.recordMember? names name = values[names.idxOf name]? := by
  have hi : names.idxOf name < names.length := List.idxOf_lt_length_of_mem hname
  rw [allFields?, Option.bind_eq_bind, Option.bind_eq_some_iff] at h
  obtain ⟨options, hfields, hvalues⟩ := h
  obtain rfl := mapM_id_eq_some hvalues
  cases value with
  | object members =>
    have hmember := congrArg (·[names.idxOf name]?) (Option.some.inj hfields)
    simp only [List.getElem?_map, List.getElem?_eq_getElem hi, Option.map_some,
      List.getElem_idxOf] at hmember
    cases hvalue : values[names.idxOf name]? with
    | none =>
      rw [hvalue] at hmember
      cases hmember
    | some value =>
      rw [hvalue] at hmember
      exact Option.some.inj hmember
  | array items =>
    rw [fields?] at hfields
    split at hfields
    next =>
      -- No place is left open, since what is left open is no value.
      have hitems := congrArg (List.filterMap id) (Option.some.inj hfields)
      have hsame : items = values := by simpa using hitems
      rw [recordMember?, hsame]
    next => cases hfields
  | _ => cases hfields

theorem eq_nat_of_bits? {w : Nat} {value : Json} {bits : BitVec w} (h : value.bits? w = some bits) :
    value = .nat bits.toNat := by
  obtain ⟨n, hn, rfl⟩ := Option.map_eq_some_iff.1 h
  cases value with
  | integer i =>
    rw [natBelow?] at hn
    split at hn
    next hrange =>
      obtain ⟨hnonneg, hlt⟩ : 0 ≤ i ∧ i < (Nat.pow 2 w : Nat) := by simpa using hrange
      cases hn
      have hmod : i.toNat % 2 ^ w = i.toNat := Nat.mod_eq_of_lt ((Int.toNat_lt hnonneg).2 hlt)
      rw [nat, BitVec.toNat_ofNat, hmod, Int.toNat_of_nonneg hnonneg]
    next => cases hn
  | _ => cases hn

end Json

/-! ## Snapshots -/

namespace Snapshot

theorem members_of_fpu? {value : Json} {f : Fpu} (h : fpu? value = some f) :
    value.recordMember? fpuNames "status" = some (ofBits f.status) ∧
      value.recordMember? fpuNames "top" = some (ofBits f.top) := by
  rw [fpu?, Option.bind_eq_bind, Option.bind_eq_some_iff] at h
  obtain ⟨values, hvalues, h⟩ := h
  rw [Json.recordMember?_of_allFields? hvalues (by decide),
    Json.recordMember?_of_allFields? hvalues (by decide)]
  split at h
  next regs control status top tags ipOffset ipSelector opcode dpOffset dpSelector =>
    simp only [Option.bind_eq_bind, Option.bind_eq_some_iff] at h
    obtain ⟨_, -, _, -, _, hstatus, _, htop, _, -, _, -, _, -, _, -, _, -, _, -, hf⟩ := h
    cases hf
    exact ⟨congrArg some (Json.eq_nat_of_bits? hstatus), congrArg some (Json.eq_nat_of_bits? htop)⟩
  next => cases h

theorem member_of_load? {value : Json} {p : Processor} (h : load? value = some p) :
    ∃ unit, value.recordMember? processorNames "fpu" = some unit ∧ fpu? unit = some p.fpu := by
  rw [load?, Option.bind_eq_bind, Option.bind_eq_some_iff] at h
  obtain ⟨values, hvalues, h⟩ := h
  rw [Json.recordMember?_of_allFields? hvalues (by decide)]
  split at h
  next regs eip eflags cr0 segs gdtr idtr ldtr tr fpu =>
    simp only [Option.bind_eq_bind, Option.bind_eq_some_iff] at h
    obtain ⟨_, -, _, -, _, -, _, -, _, -, _, -, _, -, _, -, _, -, _, hfpu, hp⟩ := h
    cases hp
    exact ⟨fpu, rfl, hfpu⟩
  next => cases h

end Snapshot

/-! ## Loading -/

namespace Machine

variable {H : Type} {m m' : Machine H} {value : Json}

theorem load?_of_restore (h : m.restore value = (true, m')) :
    Snapshot.load? value = some m'.toProcessor := by
  unfold restore at h
  split at h
  next p hload =>
    cases h
    exact hload
  next => cases h

/-- A snapshot of any unit can be loaded, and gives the unit. -/
theorem restore_of_save (m : Machine H) (p : Processor) :
    m.restore (Snapshot.save p) =
      (true, { m with toProcessor := { p with eflags := p.eflags ||| Flags.reserved } }) := by
  rw [restore, Snapshot.load?_save]

/-- A snapshot that is loaded gives the top of the stack and the status as the numbers that it has
for them.  So the status word shows the stack just when these numbers are in range, and the
numbers of the stack registers stay below 256 when the top is at most 248. -/
theorem restore_stack (h : m.restore value = (true, m')) :
    ∃ unit top status, value.recordMember? Snapshot.processorNames "fpu" = some unit ∧
      unit.recordMember? Snapshot.fpuNames "top" = some (.nat top) ∧
      unit.recordMember? Snapshot.fpuNames "status" = some (.nat status) ∧
      m'.fpu.top.toNat = top ∧ m'.fpu.status.toNat = status ∧
      (m'.fpu.ShowsStack ↔ top ≤ 7 ∧ status &&& 0x3800 = 0) ∧
      ((∀ i ≤ 7, m'.fpu.top.toNat + i < 256) ↔ top ≤ 248) := by
  obtain ⟨unit, hunit, hfpu⟩ := Snapshot.member_of_load? (load?_of_restore h)
  obtain ⟨hstatus, htop⟩ := Snapshot.members_of_fpu? hfpu
  refine ⟨unit, _, _, hunit, htop, hstatus, rfl, rfl, ?_, fun hi => ?_, fun htop i hi => ?_⟩
  · have hbits : m'.fpu.status &&& Status.top = 0 ↔ m'.fpu.status.toNat &&& 0x3800 = 0 := by
      rw [← BitVec.toNat_inj, BitVec.toNat_and]
      rfl
    rw [Fpu.showsStack_iff, ← hbits]
    exact ⟨fun h => ⟨h.top_le, h.status_top⟩, fun h => ⟨h.1, h.2⟩⟩
  · have hlast := hi 7 (Nat.le_refl 7)
    omega
  · omega

/-- A machine at power-on. -/
def poweredOn : Machine Ram := .initial ⟨⟨#[]⟩, none, 0, #[]⟩ {}

/-- The snapshot of a unit at power-on, but for the top of the stack and the status. -/
def snapshotWith (top : Byte) (status : Word) : Json :=
  Snapshot.save { Processor.initial with fpu := { Fpu.initial with top := top, status := status } }

/-- The unit with a top of three shows its stack. -/
theorem restore_stack_three : ∃ m', poweredOn.restore (snapshotWith 3 0) = (true, m') ∧
    m'.fpu.ShowsStack ∧ ∃ unit top status,
      (snapshotWith 3 0).recordMember? Snapshot.processorNames "fpu" = some unit ∧
      unit.recordMember? Snapshot.fpuNames "top" = some (.nat top) ∧
      unit.recordMember? Snapshot.fpuNames "status" = some (.nat status) ∧
      m'.fpu.top.toNat = top ∧ m'.fpu.status.toNat = status ∧
      (m'.fpu.ShowsStack ↔ top ≤ 7 ∧ status &&& 0x3800 = 0) ∧
      ((∀ i ≤ 7, m'.fpu.top.toNat + i < 256) ↔ top ≤ 248) := by
  have hload := restore_of_save poweredOn
    { Processor.initial with fpu := { Fpu.initial with top := 3, status := 0 } }
  exact ⟨_, hload, by decide, restore_stack hload⟩

/-- Neither a top of eight nor bits of the top in the status keep a snapshot from being loaded, and
the status word then shows condition three.  A top of 255 is loaded as well. -/
theorem not_showsStack_restored :
    (∃ m', poweredOn.restore (snapshotWith 8 0x3800) = (true, m') ∧ m'.fpu.top = 8 ∧
      m'.fpu.status &&& Status.top ≠ 0 ∧ ¬m'.fpu.ShowsStack ∧ m'.fpu.statusWord = Status.c3) ∧
    ∃ m', poweredOn.restore (snapshotWith 255 0) = (true, m') ∧
      ¬∀ i ≤ 7, m'.fpu.top.toNat + i < 256 := by
  have hload (top : Byte) (status : Word) := restore_of_save poweredOn
    { Processor.initial with fpu := { Fpu.initial with top := top, status := status } }
  refine ⟨⟨_, hload 8 0x3800, by decide, by decide, by decide, by decide⟩, _, hload 255 0, ?_⟩
  exact fun h => absurd (h 1 (by decide)) (by decide)

end Machine

end Ia32
