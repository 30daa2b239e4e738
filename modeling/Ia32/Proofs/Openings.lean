import Ia32.Host.Ram
import Ia32.Proofs.StepRuns
import Mathlib.Data.Nat.Find
import Mathlib.Tactic.ByContra

/-!
# Openings of instructions

An instruction opens with markers and an opcode, which stand in the code from the
instruction pointer on.  Markers are not counted: an opening may be as long as
the code segment.  Its end is the first byte that is no marker, or that cannot be
taken, and there is such a byte unless the segment holds every offset and a
marker at each of them.  Then offsets go around and the opening has no end.
-/

namespace Ia32

open Host Exec

/-! ## Markers -/

/-- The bytes that are markers. -/
def markerBytes : List Byte :=
  [0xF0, 0xF2, 0xF3, 0x26, 0x2E, 0x36, 0x3E, 0x64, 0x65, 0x66, 0x67]

namespace Prefixes

variable {p q : Prefixes} {b : Byte} {bs : List Byte}

theorem extend?_eq_none_iff : p.extend? b = none ↔ b ∉ markerBytes := by
  have hmem : b ∈ markerBytes ↔ b.toNat ∈ markerBytes.map BitVec.toNat := by
    rw [List.mem_map]
    exact ⟨fun h => ⟨b, h, rfl⟩, fun ⟨c, hc, h⟩ => BitVec.eq_of_toNat_eq h ▸ hc⟩
  rw [hmem]
  unfold extend?
  split <;> simp_all [markerBytes]

theorem exists_extend? (p : Prefixes) (hb : b ∈ markerBytes) : ∃ q, p.extend? b = some q := by
  rw [← Option.ne_none_iff_exists']
  exact fun h => extend?_eq_none_iff.mp h hb

theorem start_of_extend? (h : p.extend? b = some q) : q.start = p.start := by
  unfold extend? at h
  split at h <;> cases h <;> rfl

/-- The lock marker sets the lock, and no marker takes it back.  So do the markers of widths. -/
theorem flags_of_extend? (h : p.extend? b = some q) :
    q.lock = (p.lock || b == 0xF0) ∧ q.operandSize = (p.operandSize || b == 0x66) ∧
      q.addressSize = (p.addressSize || b == 0x67) := by
  have hbyte : b = BitVec.ofNat 8 b.toNat := by simp
  unfold extend? at h
  split at h
  case h_12 => cases h
  all_goals
    cases h
    rw [‹b.toNat = _›] at hbyte
    rw [hbyte]
    simp

/-- The markers with more bytes, if all of these are markers. -/
def extendAll? (p : Prefixes) (bs : List Byte) : Option Prefixes := bs.foldlM extend? p

theorem extendAll?_cons (p : Prefixes) (b : Byte) (bs : List Byte) :
    p.extendAll? (b :: bs) = (p.extend? b).bind (·.extendAll? bs) := rfl

theorem exists_extendAll? (p : Prefixes) (h : ∀ b ∈ bs, b ∈ markerBytes) :
    ∃ q, p.extendAll? bs = some q := by
  induction bs generalizing p with
  | nil => exact ⟨p, rfl⟩
  | cons b bs ih =>
    obtain ⟨p₁, hb⟩ := p.exists_extend? (h b List.mem_cons_self)
    obtain ⟨q, hq⟩ := ih p₁ fun c hc => h c (List.mem_cons_of_mem b hc)
    exact ⟨q, by rw [extendAll?_cons, hb, Option.bind_some, hq]⟩

theorem start_of_extendAll? (h : p.extendAll? bs = some q) : q.start = p.start := by
  induction bs generalizing p with
  | nil =>
    cases h
    rfl
  | cons b bs ih =>
    rw [extendAll?_cons, Option.bind_eq_some_iff] at h
    obtain ⟨p₁, hb, hbs⟩ := h
    rw [ih hbs, start_of_extend? hb]

theorem mem_markerBytes_of_extendAll? (h : p.extendAll? bs = some q) :
    ∀ b ∈ bs, b ∈ markerBytes := by
  induction bs generalizing p with
  | nil => simp
  | cons b bs ih =>
    rw [extendAll?_cons, Option.bind_eq_some_iff] at h
    obtain ⟨p₁, hb, hbs⟩ := h
    have hmarker : b ∈ markerBytes := by
      by_contra hn
      rw [extend?_eq_none_iff.mpr hn] at hb
      cases hb
    intro c hc
    rcases List.mem_cons.mp hc with rfl | hc
    · exact hmarker
    · exact ih hbs c hc

/-- What each marker adds to, a row of markers adds to. -/
theorem flag_of_extendAll? {flag : Prefixes → Bool} {marker : Byte}
    (hflag : ∀ {p b q}, p.extend? b = some q → flag q = (flag p || b == marker))
    (h : p.extendAll? bs = some q) : flag q = (flag p || bs.contains marker) := by
  induction bs generalizing p with
  | nil =>
    cases h
    simp
  | cons b bs ih =>
    rw [extendAll?_cons, Option.bind_eq_some_iff] at h
    obtain ⟨p₁, hb, hbs⟩ := h
    rw [ih hbs, hflag hb, List.contains_cons, Bool.or_assoc, Bool.beq_comm]

theorem lock_of_extendAll? (h : p.extendAll? bs = some q) :
    q.lock = (p.lock || bs.contains 0xF0) :=
  flag_of_extendAll? (fun h => (flags_of_extend? h).1) h

theorem operandSize_of_extendAll? (h : p.extendAll? bs = some q) :
    q.operandSize = (p.operandSize || bs.contains 0x66) :=
  flag_of_extendAll? (fun h => (flags_of_extend? h).2.1) h

theorem addressSize_of_extendAll? (h : p.extendAll? bs = some q) :
    q.addressSize = (p.addressSize || bs.contains 0x67) :=
  flag_of_extendAll? (fun h => (flags_of_extend? h).2.2) h

end Prefixes

/-! ## Bytes of code -/

variable {H : Type} [Host H] {m m₁ : Machine H} {p q : Prefixes} {b : Byte} {limit n : Nat}

namespace Machine

/-- The byte of code at an offset, if it can be taken. -/
def codeByte? (m : Machine H) (offset : Dword) : Option Byte :=
  if m.segs.cs.contains offset 1 then (Host.read m.host (m.segs.cs.base + offset)).toOption
  else none

/-- The code holds some bytes from an offset on. -/
def HoldsCode (m : Machine H) : Dword → List Byte → Prop
  | _, [] => True
  | offset, b :: bs => m.codeByte? offset = some b ∧ m.HoldsCode (offset + 1) bs

/-- The code holds a marker at an offset. -/
def MarkerAt (m : Machine H) (offset : Dword) : Prop :=
  ∃ b ∈ markerBytes, m.codeByte? offset = some b

theorem HoldsCode.moved {bs : List Byte} {offset : Dword} (h : m.HoldsCode offset bs)
    (eip : Dword) : { m with eip := eip }.HoldsCode offset bs := by
  induction bs generalizing offset with
  | nil => trivial
  | cons b bs ih => exact ⟨h.1, ih h.2⟩

theorem HoldsCode.codeByte? {bs : List Byte} {offset : Dword} (h : m.HoldsCode offset bs) (i : Nat)
    (hi : i < bs.length) : m.codeByte? (offset + BitVec.ofNat 32 i) = some bs[i] := by
  induction bs generalizing offset i with
  | nil => simp at hi
  | cons b bs ih =>
    cases i with
    | zero => simpa using h.1
    | succ i =>
      have hstep : offset + BitVec.ofNat 32 (i + 1) = offset + 1 + BitVec.ofNat 32 i := by
        rw [BitVec.ofNat_add]
        bv_omega
      rw [hstep]
      exact ih h.2 i (by simpa using hi)

theorem holdsCode_append {bs cs : List Byte} {offset : Dword} :
    m.HoldsCode offset (bs ++ cs) ↔
      m.HoldsCode offset bs ∧ m.HoldsCode (offset + BitVec.ofNat 32 bs.length) cs := by
  induction bs generalizing offset with
  | nil => simp [HoldsCode]
  | cons b bs ih =>
    have hstep : offset + 1 + BitVec.ofNat 32 bs.length =
        offset + BitVec.ofNat 32 (b :: bs).length := by
      rw [List.length_cons, BitVec.ofNat_add]
      bv_omega
    rw [List.cons_append, HoldsCode, HoldsCode, ih, hstep, and_assoc]

/-- A row of markers before another byte is shorter than the code segment can be, since behind
the last offset the row would start again. -/
theorem HoldsCode.length_lt {bs : List Byte} {offset : Dword}
    (h : m.HoldsCode offset (bs ++ [b])) (hb : b ∉ bs) : bs.length < offsetCount := by
  by_contra hn
  have hlen : offsetCount ≤ bs.length := Nat.le_of_not_lt hn
  have hround : BitVec.ofNat 32 (bs.length - offsetCount) = BitVec.ofNat 32 bs.length := by
    apply BitVec.eq_of_toNat_eq
    rw [BitVec.toNat_ofNat, BitVec.toNat_ofNat]
    exact (Nat.mod_eq_sub_mod hlen).symm
  have hlt : bs.length - offsetCount < bs.length :=
    Nat.sub_lt_of_pos_le (Nat.two_pow_pos 32) hlen
  have hlast := h.codeByte? bs.length (by simp)
  have hfirst := h.codeByte? (bs.length - offsetCount) (by
    rw [List.length_append]
    exact Nat.lt_add_right _ hlt)
  rw [hround, hlast] at hfirst
  simp only [List.getElem_append_right (Nat.le_refl bs.length), List.getElem_append_left hlt,
    Nat.sub_self, List.getElem_singleton, Option.some.injEq] at hfirst
  exact hb (hfirst ▸ List.getElem_mem hlt)

/-- The code at the instruction pointer is a row of markers and an opcode, and `p` is what the
markers say. -/
structure Opens (m : Machine H) (bs : List Byte) (opcode : Byte) (p : Prefixes) : Prop where
  holds : m.HoldsCode m.eip (bs ++ [opcode])
  markers : Prefixes.extendAll? { start := m.eip } bs = some p
  opcode : opcode ∉ markerBytes

end Machine

namespace Exec

theorem fetch8_run_of_code (h : m.codeByte? m.eip = some b) :
    fetch8.run m = .ok b { m with eip := m.eip + 1 } := by
  unfold Machine.codeByte? at h
  split at h
  next hc =>
    cases hr : Host.read m.host (m.segs.cs.base + m.eip) with
    | error f => simp [hr, Except.toOption] at h
    | ok b' =>
      simp only [hr, Except.toOption, Option.some.injEq] at h
      subst h
      simp only [fetch8, run_view_bind, hc, Bool.not_true, Bool.false_eq_true, if_false]
      simp only [EStateM.run_bind, EStateM.run_get, hr]
      rfl
  next => cases h

theorem fetch8_run_of_no_code (h : m.codeByte? m.eip = none) :
    ∃ f : Fault, fetch8.run m = .error f m := by
  unfold Machine.codeByte? at h
  simp only [fetch8, run_view_bind]
  split at h
  next hc =>
    cases hr : Host.read m.host (m.segs.cs.base + m.eip) with
    | ok b => simp [hr, Except.toOption] at h
    | error f =>
      simp only [hc, Bool.not_true, Bool.false_eq_true, if_false]
      simp only [EStateM.run_bind, EStateM.run_get, hr]
      exact ⟨f, rfl⟩
  next hc => exact ⟨.generalProtection 0, by simp only [hc]; rfl⟩

theorem fetch8_ends (m : Machine H) :
    Ends fetch8 m
      (fun b m₁ => m.codeByte? m.eip = some b ∧ m₁ = { m with eip := m.eip + 1 })
      (fun _ m₁ => m₁ = m) := by
  cases hb : m.codeByte? m.eip with
  | some b =>
    unfold Ends
    rw [fetch8_run_of_code hb]
    exact ⟨rfl, rfl⟩
  | none =>
    obtain ⟨f, hf⟩ := fetch8_run_of_no_code hb
    unfold Ends
    rw [hf]

/-- An opcode is decoded from itself, or from the byte that follows it. -/
theorem decodeOpcode_ends (p : Prefixes) (opcode : Byte) (m : Machine H) :
    Ends (decodeOpcode p opcode) m (fun decoded m₁ =>
      opcode ≠ 0x0F ∧ Instruction.decode opcode = decoded ∧ m₁.eip = m.eip ∨
        opcode = 0x0F ∧ ∃ b, m.codeByte? m.eip = some b ∧
          Instruction.decodeExtended b = decoded ∧ m₁.eip = m.eip + 1) (fun _ _ => True) := by
  rw [decodeOpcode, ends_bind, ends_note, ends_ite]
  constructor
  · intro htwo
    rw [ends_bind]
    refine (fetch8_ends _).mono (fun b m₁ ⟨hb, hm₁⟩ => ?_) fun _ _ _ => trivial
    exact .inr ⟨htwo, b, hb, rfl, by rw [hm₁]⟩
  · intro hone
    exact .inl ⟨hone, rfl, rfl⟩

/-! ## The loop over markers -/

theorem fetchOpening_of_marker (hb : m.codeByte? m.eip = some b) (hp : p.extend? b = some q) :
    (fetchOpening (limit + 1) p).run m =
      (fetchOpening limit q).run { m with eip := m.eip + 1 } := by
  rw [fetchOpening, run_bind_of_ok (fetch8_run_of_code hb), hp]

theorem fetchOpening_of_opcode (hb : m.codeByte? m.eip = some b) (hp : p.extend? b = none) :
    (fetchOpening (limit + 1) p).run m = .ok (some ⟨p, b⟩) { m with eip := m.eip + 1 } := by
  rw [fetchOpening, run_bind_of_ok (fetch8_run_of_code hb), hp]
  rfl

theorem fetchOpening_of_no_code (hb : m.codeByte? m.eip = none) :
    ∃ f : Fault, ∀ limit, (fetchOpening (limit + 1) p).run m = .error f m := by
  obtain ⟨f, hf⟩ := fetch8_run_of_no_code hb
  exact ⟨f, fun limit => by rw [fetchOpening, EStateM.run_bind, hf]⟩

/-- A row of markers and an opcode open an instruction. -/
theorem fetchOpening_of_holds {bs : List Byte} {opcode : Byte} (hp : p.extendAll? bs = some q)
    (ho : opcode ∉ markerBytes) (hc : m.HoldsCode m.eip (bs ++ [opcode])) (hl : bs.length < limit) :
    (fetchOpening limit p).run m =
      .ok (some ⟨q, opcode⟩) { m with eip := m.eip + BitVec.ofNat 32 (bs.length + 1) } := by
  induction bs generalizing limit m p with
  | nil =>
    obtain ⟨limit, rfl⟩ := Nat.exists_eq_succ_of_ne_zero (Nat.ne_zero_of_lt hl)
    cases hp
    exact fetchOpening_of_opcode hc.1 (Prefixes.extend?_eq_none_iff.mpr ho)
  | cons b bs ih =>
    obtain ⟨limit, rfl⟩ := Nat.exists_eq_succ_of_ne_zero (Nat.ne_zero_of_lt hl)
    rw [Prefixes.extendAll?_cons, Option.bind_eq_some_iff] at hp
    obtain ⟨p₁, hb, hbs⟩ := hp
    have hrest := ih (m := { m with eip := m.eip + 1 }) hbs (hc.2.moved _) (by simpa using hl)
    have hstep : m.eip + 1 + BitVec.ofNat 32 (bs.length + 1) =
        m.eip + BitVec.ofNat 32 ((b :: bs).length + 1) := by
      rw [List.length_cons, BitVec.ofNat_add _ 1]
      bv_omega
    rw [fetchOpening_of_marker hc.1 hb, hrest, hstep]

/-- What opens an instruction is a row of markers and an opcode. -/
theorem exists_row_of_fetchOpening (h : (fetchOpening limit p).run m = .ok (some ⟨q, b⟩) m₁) :
    ∃ bs, p.extendAll? bs = some q ∧ b ∉ markerBytes ∧ m.HoldsCode m.eip (bs ++ [b]) := by
  induction limit generalizing m p with
  | zero => cases h
  | succ limit ih =>
    obtain ⟨c, m₂, hbyte, hrest⟩ := run_bind_eq_ok_iff.mp h
    obtain ⟨hcode, rfl⟩ := (fetch8_ends m).of_ok hbyte
    split at hrest
    next p₁ hp =>
      obtain ⟨bs, hbs, hb, hholds⟩ := ih hrest
      refine ⟨c :: bs, ?_, hb, hcode, hholds.moved m.eip⟩
      rw [Prefixes.extendAll?_cons, hp, Option.bind_some, hbs]
    next hp =>
      cases hrest
      exact ⟨[], rfl, Prefixes.extend?_eq_none_iff.mp hp, hcode, trivial⟩

/-- A row of markers is passed, and what follows it decides. -/
theorem fetchOpening_of_row (hm : ∀ i < n, m.MarkerAt (m.eip + BitVec.ofNat 32 i)) (p : Prefixes) :
    ∃ q, ∀ limit, (fetchOpening (n + limit) p).run m =
      (fetchOpening limit q).run { m with eip := m.eip + BitVec.ofNat 32 n } := by
  induction n generalizing m p with
  | zero => exact ⟨p, fun limit => by simp⟩
  | succ n ih =>
    obtain ⟨b, hb, hcode⟩ := hm 0 (Nat.succ_pos n)
    obtain ⟨p₁, hp₁⟩ := p.exists_extend? hb
    have hnext (i : Nat) : m.eip + 1 + BitVec.ofNat 32 i = m.eip + BitVec.ofNat 32 (i + 1) := by
      rw [BitVec.ofNat_add]
      bv_omega
    have hrow : ∀ i < n, { m with eip := m.eip + 1 }.MarkerAt (m.eip + 1 + BitVec.ofNat 32 i) := by
      intro i hi
      rw [hnext]
      exact hm (i + 1) (Nat.succ_lt_succ hi)
    obtain ⟨q, hq⟩ := ih (m := { m with eip := m.eip + 1 }) hrow p₁
    refine ⟨q, fun limit => ?_⟩
    rw [Nat.succ_add, fetchOpening_of_marker (by simpa using hcode) hp₁, hq, hnext]

/-- A byte that is no marker ends the loop, whatever the limit is. -/
theorem fetchOpening_of_no_marker (hm : ¬m.MarkerAt m.eip) (p : Prefixes) :
    ∃ result, (∀ m₁, result ≠ .ok none m₁) ∧
      ∀ limit, (fetchOpening (limit + 1) p).run m = result := by
  cases hb : m.codeByte? m.eip with
  | none =>
    obtain ⟨f, hf⟩ := fetchOpening_of_no_code (p := p) hb
    refine ⟨.error f m, fun _ h => ?_, hf⟩
    cases h
  | some b =>
    have hno : b ∉ markerBytes := fun h => hm ⟨b, h, hb⟩
    have hp : p.extend? b = none := Prefixes.extend?_eq_none_iff.mpr hno
    refine ⟨_, fun _ h => ?_, fun _ => fetchOpening_of_opcode hb hp⟩
    cases h

/-! ## Ends of the loop -/

/-- The loop over markers ends when it may take `limit` bytes: it finds an opcode or a fault,
and a higher limit changes nothing. -/
structure OpeningEnds (limit : Nat) (p : Prefixes) (m : Machine H) : Prop where
  found : value? (fetchOpening limit p) m ≠ some none
  stable : ∀ limit' ≥ limit, (fetchOpening limit' p).run m = (fetchOpening limit p).run m

/-- The loop ends with the first byte that is no marker. -/
theorem openingEnds_of_row (hm : ∀ i < n, m.MarkerAt (m.eip + BitVec.ofNat 32 i))
    (hn : ¬m.MarkerAt (m.eip + BitVec.ofNat 32 n)) (p : Prefixes) : OpeningEnds (n + 1) p m := by
  obtain ⟨q, hq⟩ := fetchOpening_of_row hm p
  obtain ⟨result, hsome, hresult⟩ :=
    fetchOpening_of_no_marker (m := { m with eip := m.eip + BitVec.ofNat 32 n }) hn q
  have hrun : ∀ limit, (fetchOpening (n + (limit + 1)) p).run m = result := fun limit => by
    rw [hq, hresult]
  constructor
  · rw [Ne, value?_eq_some_iff]
    rintro ⟨m₁, h⟩
    exact hsome m₁ ((hrun 0).symm.trans h)
  · intro limit' hl
    obtain ⟨more, rfl⟩ := Nat.exists_eq_add_of_le hl
    rw [Nat.add_assoc n 1 more, Nat.add_comm 1 more, hrun, hrun 0]

theorem OpeningEnds.mono {limit' : Nat} (h : OpeningEnds limit p m) (hl : limit ≤ limit') :
    OpeningEnds limit' p m := by
  have hstable := h.stable limit' hl
  refine ⟨fun hv => h.found ?_, fun limit'' hl' => ?_⟩
  · rw [value?, ← hstable]
    exact hv
  · rw [h.stable limit'' (Nat.le_trans hl hl'), hstable]

/-- Among all offsets there is a first one without a marker, if there is any. -/
theorem exists_row_of_no_marker (h : ∃ offset, ¬m.MarkerAt offset) :
    ∃ n < offsetCount, (∀ i < n, m.MarkerAt (m.eip + BitVec.ofNat 32 i)) ∧
      ¬m.MarkerAt (m.eip + BitVec.ofNat 32 n) := by
  classical
  obtain ⟨offset, hoffset⟩ := h
  have hreached : ¬m.MarkerAt (m.eip + BitVec.ofNat 32 (offset - m.eip).toNat) := by
    rw [BitVec.ofNat_toNat, BitVec.setWidth_eq, BitVec.add_comm, BitVec.sub_add_cancel]
    exact hoffset
  have hex : ∃ n, ¬m.MarkerAt (m.eip + BitVec.ofNat 32 n) := ⟨_, hreached⟩
  refine ⟨Nat.find hex, ?_, fun i hi => ?_, Nat.find_spec hex⟩
  · exact Nat.lt_of_le_of_lt (Nat.find_min' hex hreached) (offset - m.eip).isLt
  · exact not_not.mp (Nat.find_min hex hi)

/-- The loop ends when some byte of the code segment is no marker. -/
theorem openingEnds_of_no_marker (h : ∃ offset, ¬m.MarkerAt offset) (p : Prefixes) :
    OpeningEnds offsetCount p m := by
  obtain ⟨n, hn, hrow, hlast⟩ := exists_row_of_no_marker h
  exact (openingEnds_of_row hrow hlast p).mono hn

/-- Among markers alone no limit is high enough. -/
theorem fetchOpening_of_markers (h : ∀ offset, m.MarkerAt offset) (limit : Nat) (p : Prefixes) :
    value? (fetchOpening limit p) m = some none := by
  obtain ⟨q, hq⟩ := fetchOpening_of_row (n := limit) (fun i _ => h _) p
  exact value?_of_ok (hq 0)

theorem not_openingEnds_of_markers (h : ∀ offset, m.MarkerAt offset) (limit : Nat) (p : Prefixes) :
    ¬OpeningEnds limit p m :=
  fun he => he.found (fetchOpening_of_markers h limit p)

/-- There is no instruction exactly when the loop over markers finds neither opcode nor fault. -/
theorem fetchInstruction_eq_none_iff :
    value? fetchInstruction m = some none ↔
      value? (fetchOpening offsetCount { start := m.eip }) m = some none := by
  rw [fetchInstruction, value?_view_bind]
  unfold value?
  rw [EStateM.run_bind]
  cases (fetchOpening offsetCount { start := m.eip }).run m with
  | error f m₁ => simp
  | ok opening? m₁ =>
    cases opening? with
    | none => exact ⟨fun _ => rfl, fun _ => rfl⟩
    | some opening =>
      simp only [EStateM.run_bind]
      cases (decodeOpcode opening.markers opening.opcode).run m₁ <;> simp

end Exec

namespace Machine

theorem step_eq_never_iff : m.step.1 = .never ↔ value? fetchInstruction m = some none := by
  unfold step execute value?
  rw [EStateM.run_bind]
  cases fetchInstruction.run m with
  | error f m₁ => simp
  | ok decoded m₁ =>
    rcases decoded with _ | ⟨p, feature | i⟩
    · exact ⟨fun _ => rfl, fun _ => rfl⟩
    · exact ⟨nofun, nofun⟩
    · simp only [EStateM.run_bind]
      cases (runInstruction p i).run m₁ <;> simp

/-- A step has no end exactly when the code segment holds every offset, and a marker at each. -/
theorem step_eq_never_iff_markers : m.step.1 = .never ↔ ∀ offset, m.MarkerAt offset := by
  rw [step_eq_never_iff, fetchInstruction_eq_none_iff]
  constructor
  · intro hnone
    by_contra hall
    exact (openingEnds_of_no_marker (not_forall.mp hall) _).found hnone
  · intro hall
    exact fetchOpening_of_markers hall _ _

/-- A step is completed or faults, and takes no more markers than there are offsets, unless the
code segment holds every offset and a marker at each.  Then no number of bytes is enough. -/
theorem step_ends_unless_markers (m : Machine H) :
    (m.step.1 = .completed ∨ ∃ f, m.step.1 = .fault f) ∧
        OpeningEnds offsetCount { start := m.eip } m ∨
      (∀ offset, m.MarkerAt offset) ∧ m.step.1 = .never ∧
        ∀ limit, ¬OpeningEnds limit { start := m.eip } m := by
  by_cases hall : ∀ offset, m.MarkerAt offset
  · right
    refine ⟨hall, step_eq_never_iff_markers.mpr hall, fun limit => ?_⟩
    exact not_openingEnds_of_markers hall limit _
  · left
    refine ⟨?_, openingEnds_of_no_marker (not_forall.mp hall) _⟩
    have hends : m.step.1 ≠ .never := fun h => hall (step_eq_never_iff_markers.mp h)
    cases hstep : m.step.1 with
    | completed => exact .inl rfl
    | fault f => exact .inr ⟨f, rfl⟩
    | never => exact absurd hstep hends

/-- Four GiB of one marker, under a code segment that holds every offset. -/
theorem step_of_markers_only :
    let m : Machine Ram := .initial ⟨⟨Array.replicate offsetCount 0x66⟩, none, 0, #[]⟩ {}
    let cs := { SegmentCache.realMode 0 false with lastByte := 0xFFFFFFFF }
    let m := { m with eip := 0, segs := { m.segs with cs := cs } }
    m.step.1 = .never ∧ ∀ limit, ¬OpeningEnds limit { start := m.eip } m := by
  intro m₀ cs m
  have hmarker : ∀ offset, m.MarkerAt offset := by
    intro offset
    have hin : cs.contains offset 1 = true := by
      have hlt := offset.isLt
      simp only [SegmentCache.contains, cs, SegmentCache.realMode, BitVec.ofNat_eq_ofNat,
        BitVec.toNat_ofNat, Bool.and_eq_true, decide_eq_true_eq]
      omega
    have hread : ∀ address, Host.read m.host address = .ok 0x66 := by
      intro address
      have hsize : address.toNat < m.host.bytes.size := by
        change address.toNat < (Array.replicate offsetCount (0x66 : UInt8)).size
        rw [Array.size_replicate]
        exact address.isLt
      change Except.ok (m.host.peek address) = _
      rw [Ram.peek, dif_pos hsize, ByteArray.getElem_eq_getElem_data]
      exact congrArg (fun byte : UInt8 => Except.ok byte.toBitVec) (Array.getElem_replicate _)
    refine ⟨0x66, by decide, ?_⟩
    rw [codeByte?, if_pos hin, hread]
    rfl
  refine ⟨step_eq_never_iff_markers.mpr hmarker, fun limit => ?_⟩
  exact not_openingEnds_of_markers hmarker limit _

end Machine

/-! ## Instructions behind an opening -/

theorem Machine.Fetches.exists_opens {i : Instruction} (h : m.Fetches p i m₁) :
    ∃ bs opcode, m.Opens bs opcode p := by
  have hrun := h.run
  rw [fetchInstruction, run_view_bind] at hrun
  obtain ⟨opening?, m₂, hopening, hrest⟩ := run_bind_eq_ok_iff.mp hrun
  cases opening? with
  | none => cases hrest
  | some opening =>
    obtain ⟨decoded, m₃, -, hpure⟩ := run_bind_eq_ok_iff.mp hrest
    cases hpure
    obtain ⟨bs, hbs, hopcode, hholds⟩ := exists_row_of_fetchOpening hopening
    exact ⟨bs, opening.opcode, hholds, hbs, hopcode⟩

namespace Machine.Opens

variable {bs : List Byte} {opcode : Byte} {i : Instruction}

theorem length_lt (h : m.Opens bs opcode p) : bs.length < offsetCount :=
  h.holds.length_lt fun hb => h.opcode (Prefixes.mem_markerBytes_of_extendAll? h.markers _ hb)

theorem fetchOpening_run (h : m.Opens bs opcode p) :
    (fetchOpening offsetCount { start := m.eip }).run m =
      .ok (some ⟨p, opcode⟩) { m with eip := m.eip + BitVec.ofNat 32 (bs.length + 1) } :=
  fetchOpening_of_holds h.markers h.opcode h.holds h.length_lt

/-- An opcode of one byte is its instruction. -/
theorem fetchInstruction_run (h : m.Opens bs opcode p) (hone : opcode ≠ 0x0F) :
    ∃ log, fetchInstruction.run m = .ok (some ⟨p, Instruction.decode opcode⟩)
      { m with eip := m.eip + BitVec.ofNat 32 (bs.length + 1), log := log } := by
  have hdecode : ∀ m' : Machine H, ∃ log,
      (decodeOpcode p opcode).run m' = .ok (Instruction.decode opcode) { m' with log := log } := by
    intro m'
    rw [decodeOpcode, if_neg hone]
    exact ⟨_, rfl⟩
  obtain ⟨log, hlog⟩ := hdecode { m with eip := m.eip + BitVec.ofNat 32 (bs.length + 1) }
  refine ⟨log, ?_⟩
  rw [fetchInstruction, run_view_bind, run_bind_of_ok h.fetchOpening_run]
  exact run_bind_of_ok hlog _

/-- The instruction that a machine takes from its code stands behind the markers, and the machine
has moved past its opcode. -/
theorem fetches_cases (h : m.Opens bs opcode p) {p' : Prefixes} (hf : m.Fetches p' i m₁) :
    p' = p ∧
      (opcode ≠ 0x0F ∧ Instruction.decode opcode = .ok i ∧
          m₁.eip = m.eip + BitVec.ofNat 32 (bs.length + 1) ∨
        opcode = 0x0F ∧ ∃ b, m.codeByte? (m.eip + BitVec.ofNat 32 (bs.length + 1)) = some b ∧
          Instruction.decodeExtended b = .ok i ∧
          m₁.eip = m.eip + BitVec.ofNat 32 (bs.length + 1) + 1) := by
  have hrun := hf.run
  rw [fetchInstruction, run_view_bind, run_bind_of_ok h.fetchOpening_run] at hrun
  obtain ⟨r, m₂, hr, hpure⟩ := run_bind_eq_ok_iff.mp hrun
  cases hpure
  exact ⟨rfl, (decodeOpcode_ends p opcode _).of_ok hr⟩

/-- A step whose opening has an end has one too. -/
theorem step_ne_never (h : m.Opens bs opcode p) : m.step.1 ≠ .never := by
  intro hnever
  obtain ⟨b, hb, hcode⟩ := step_eq_never_iff_markers.mp hnever (m.eip + BitVec.ofNat 32 bs.length)
  have hopcode := (holdsCode_append.mp h.holds).2.1
  rw [hcode, Option.some.injEq] at hopcode
  exact h.opcode (hopcode ▸ hb)

end Machine.Opens

end Ia32
