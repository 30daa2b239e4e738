import Mathlib.Tactic.IntervalCases
import Ia32.Fpu.Image
import Ia32.Proofs.NumberEncodings

/-!
# States of the floating-point unit

`Fpu.WellFormed` says what holds of every state that the unit can reach: the
fields hold no more bits than they have room for, and the two summary bits tell
whether an exception that was raised is not masked.

The summary bits are not computed anew by every instruction.  Raising exceptions
sets them when one of the new exceptions is not masked, and leaves them alone
otherwise.  This is enough, because exceptions that are masked do not change
what the summary bits have to say.
-/

namespace Ia32

namespace Fpu

/-- The fields of the unit fit, and the summary bits are set exactly when some exception that
was raised is not masked. -/
structure WellFormed (f : Fpu) : Prop where
  top_le : f.top ≤ 7
  status_top : f.status &&& Status.top = 0
  opcode_le : f.opcode ≤ 0x7FF
  encodings : ∀ r : Fin 8, f.regs[r].HasEncoding
  summary : f.status &&& Status.summary ≠ 0 ↔ f.unmasked f.status ≠ 0
  busy : f.status &&& Status.busy ≠ 0 ↔ f.unmasked f.status ≠ 0

variable {f : Fpu}

/-! ## Masks -/

/-- The bits of the status word that tell conditions. -/
def conditions : Word := Status.c0 ||| Status.c1 ||| Status.c2 ||| Status.c3

/-- The bits of the status word that can be raised. -/
def raisable : Word := Status.exceptions ||| Status.stackFault

/-- Bits within others are outside whatever those are outside. -/
theorem and_eq_zero_of_within {a b mask : Word} (ha : a &&& ~~~b = 0) (hb : b &&& mask = 0) :
    a &&& mask = 0 := by
  apply BitVec.eq_of_getLsbD_eq
  intro i hi
  have ha' : (a &&& ~~~b).getLsbD i = false := by
    rw [ha]
    exact BitVec.getLsbD_zero
  have hb' : (b &&& mask).getLsbD i = false := by
    rw [hb]
    exact BitVec.getLsbD_zero
  simp only [BitVec.getLsbD_and, BitVec.getLsbD_not, hi, decide_true] at ha' hb' ⊢
  cases hm : mask.getLsbD i <;> simp_all

theorem and_not_and_self (a b : Word) : (a &&& ~~~b) &&& b = 0 := by
  apply BitVec.eq_of_getLsbD_eq
  intro i hi
  simp only [BitVec.getLsbD_and, BitVec.getLsbD_not, hi, decide_true]
  cases b.getLsbD i <;> simp

theorem and_not_and_and (a b c : Word) : (a &&& ~~~b) &&& (b &&& c) = 0 := by
  rw [← BitVec.and_assoc, and_not_and_self]
  exact BitVec.zero_and

theorem or_ne_zero_left {a b : Word} (h : a ≠ 0) : a ||| b ≠ 0 := fun hz =>
  h (BitVec.or_eq_zero_iff.1 hz).1

theorem or_ne_zero_right {a b : Word} (h : b ≠ 0) : a ||| b ≠ 0 := fun hz =>
  h (BitVec.or_eq_zero_iff.1 hz).2

/-- Setting bits outside a mask. -/
theorem or_and_eq_left {a b mask : Word} (h : b &&& mask = 0) :
    (a ||| b) &&& mask = a &&& mask := by
  rw [BitVec.and_or_distrib_right, h]
  exact BitVec.or_zero

/-- Clearing bits outside a mask. -/
theorem and_not_and_eq_left {a b mask : Word} (h : b &&& mask = 0) :
    (a &&& ~~~b) &&& mask = a &&& mask := by
  apply BitVec.eq_of_getLsbD_eq
  intro i hi
  have hb : (b &&& mask).getLsbD i = false := by
    rw [h]
    exact BitVec.getLsbD_zero
  simp only [BitVec.getLsbD_and, BitVec.getLsbD_not] at hb ⊢
  cases hm : mask.getLsbD i <;> simp_all

/-- Changing bits outside a mask. -/
theorem setCondition_status_and {bits mask : Word} (h : bits &&& mask = 0) (on : Bool) :
    (f.setCondition bits on).status &&& mask = f.status &&& mask := by
  cases on with
  | true => exact or_and_eq_left h
  | false => exact and_not_and_eq_left h

/-- Bits that are cleared are not set. -/
theorem clear_status_and {bits mask : Word} (h : bits &&& mask = mask) :
    (f.setCondition bits false).status &&& mask = 0 := by
  rw [← h]
  exact and_not_and_and _ _ _

theorem unmasked_eq (f : Fpu) (bits : Word) :
    f.unmasked bits = bits &&& Status.exceptions &&& ~~~f.control := by
  rw [unmasked, BitVec.and_assoc, BitVec.and_comm (~~~f.control), ← BitVec.and_assoc]

theorem unmasked_or (f : Fpu) (a b : Word) :
    f.unmasked (a ||| b) = f.unmasked a ||| f.unmasked b := by
  simp only [unmasked, BitVec.and_or_distrib_right]

/-! ## Tags -/

theorem getLsbD_three (i : Nat) : (3 : Word).getLsbD i = decide (i < 2) := by
  by_cases h : i < 16
  · interval_cases i <;> rfl
  · rw [BitVec.getLsbD_of_ge _ _ (Nat.le_of_not_lt h)]
    simp only [Bool.false_eq, decide_eq_false_iff_not]
    omega

/-- The bits of the tags after one of them is written. -/
theorem getLsbD_tags_setTagAt (f : Fpu) (r : Fin 8) (t : Tag) {i : Nat} (hi : i < 16) :
    (f.setTagAt r t).tags.getLsbD i =
      if 2 * r.val ≤ i ∧ i < 2 * r.val + 2 then t.toBits.getLsbD (i - 2 * r)
      else f.tags.getLsbD i := by
  simp only [setTagAt, BitVec.getLsbD_or, BitVec.getLsbD_and, BitVec.getLsbD_not,
    BitVec.getLsbD_shiftLeft, BitVec.getLsbD_setWidth, getLsbD_three]
  split
  next h =>
    have hlow : ¬i < 2 * r.val := by omega
    have hin : i - 2 * r.val < 2 := by omega
    have hlt : i - 2 * r.val < 16 := by omega
    simp [hi, hlow, hin, hlt]
  next h =>
    by_cases hlow : i < 2 * r.val
    · simp [hi, hlow]
    · have hout : ¬i - 2 * r.val < 2 := by omega
      simp only [hi, hlow, hout, BitVec.getLsbD_of_ge _ _ (Nat.le_of_not_lt hout), decide_true,
        decide_false, Bool.not_false, Bool.and_true, Bool.and_false, Bool.or_false]

/-- A tag that is written is read back, and the other tags stay. -/
theorem tagAt_setTagAt (f : Fpu) (r s : Fin 8) (t : Tag) :
    (f.setTagAt r t).tagAt s = if s = r then t else f.tagAt s := by
  have hbits : (f.setTagAt r t).tags.extractLsb' (2 * s) 2
      = if s = r then t.toBits else f.tags.extractLsb' (2 * s) 2 := by
    apply BitVec.eq_of_getLsbD_eq
    intro i hi
    have hlt : 2 * s.val + i < 16 := by omega
    rw [BitVec.getLsbD_extractLsb', getLsbD_tags_setTagAt f r t hlt]
    by_cases h : s = r
    · have hin : 2 * r.val ≤ 2 * s.val + i ∧ 2 * s.val + i < 2 * r.val + 2 := by omega
      subst h
      simp [hi]
    · have hne : s.val ≠ r.val := fun hv => h (Fin.ext hv)
      have hout : ¬(2 * r.val ≤ 2 * s.val + i ∧ 2 * s.val + i < 2 * r.val + 2) := by omega
      simp only [hout, h, if_false, BitVec.getLsbD_extractLsb']
  unfold tagAt
  rw [hbits]
  split
  · exact Tag.ofBits_toBits t
  · rfl

theorem tag_ofNumber_ne_empty (x : Extended) : Tag.ofNumber x ≠ .empty := by
  unfold Tag.ofNumber
  split_ifs <;> decide

/-- Writing a number empties no register. -/
theorem tagAt_of_store_empty {i : Nat} {x : Extended} {r : Fin 8}
    (h : (f.store i x).tagAt r = .empty) : f.tagAt r = .empty := by
  change ((f.setSt i x).setTagAt _ _).tagAt r = .empty at h
  rw [tagAt_setTagAt] at h
  split at h
  · exact absurd h (tag_ofNumber_ne_empty _)
  · exact h

/-! ## Changes that keep a state well formed -/

namespace WellFormed

theorem initial : initial.WellFormed where
  top_le := by decide
  status_top := by decide
  opcode_le := by decide
  encodings := by decide
  summary := by decide
  busy := by decide

/-- The reset state with other registers and another opcode. -/
theorem reinitialize (h : f.WellFormed) {opcode : Word} (ho : opcode ≤ 0x7FF) :
    WellFormed { f.reinitialize with opcode := opcode } :=
  { initial with opcode_le := ho, encodings := h.encodings }

/-- Remembering an instruction. -/
theorem remember (h : f.WellFormed) {opcode : Word} (ho : opcode ≤ 0x7FF) (offset : Dword)
    (selector : Word) :
    WellFormed { f with ipOffset := offset, ipSelector := selector, opcode := opcode } :=
  { h with opcode_le := ho }

/-- Setting or clearing conditions. -/
theorem setCondition (h : f.WellFormed) {bits : Word} (hb : bits &&& ~~~conditions = 0)
    (on : Bool) : (f.setCondition bits on).WellFormed := by
  have keeps {mask : Word} (hm : conditions &&& mask = 0) :
      (f.setCondition bits on).status &&& mask = f.status &&& mask :=
    setCondition_status_and (and_eq_zero_of_within hb hm) on
  have hun : (f.setCondition bits on).unmasked (f.setCondition bits on).status
      = f.unmasked f.status := by
    rw [unmasked_eq, keeps (by decide), unmasked_eq]
    rfl
  refine { h with status_top := ?_, summary := ?_, busy := ?_ }
  · rw [keeps (by decide)]
    exact h.status_top
  · rw [keeps (by decide), hun]
    exact h.summary
  · rw [keeps (by decide), hun]
    exact h.busy

/-- Raising exceptions.  If they are all masked, the summary bits stay right as they are. -/
theorem raise (h : f.WellFormed) {bits : Word} (hb : bits &&& ~~~raisable = 0) :
    (f.raise bits).2.WellFormed := by
  have outside {mask : Word} (hm : raisable &&& mask = 0) : bits &&& mask = 0 :=
    and_eq_zero_of_within hb hm
  unfold Fpu.raise
  dsimp only
  split
  next hstops =>
    -- One of the new exceptions is not masked, so both summary bits are right to be set.
    have hstops : f.unmasked bits ≠ 0 := by simpa using hstops
    have hun : f.unmasked (f.status ||| bits ||| (Status.summary ||| Status.busy)) ≠ 0 := by
      simp only [unmasked_or]
      exact or_ne_zero_left (or_ne_zero_right hstops)
    refine { h with status_top := ?_, summary := iff_of_true ?_ hun, busy := iff_of_true ?_ hun }
    · rw [setCondition_status_and (by decide), setCondition_status_and (outside (by decide))]
      exact h.status_top
    · change (f.status ||| bits ||| (Status.summary ||| Status.busy)) &&& Status.summary ≠ 0
      rw [BitVec.and_or_distrib_right]
      exact or_ne_zero_right (by decide)
    · change (f.status ||| bits ||| (Status.summary ||| Status.busy)) &&& Status.busy ≠ 0
      rw [BitVec.and_or_distrib_right]
      exact or_ne_zero_right (by decide)
  next hmasked =>
    -- All of the new exceptions are masked: the summary bits stay, and so does what they stand for.
    have hun : f.unmasked (f.status ||| bits) = f.unmasked f.status := by
      have hzero : f.unmasked bits = 0 := by simpa using hmasked
      rw [unmasked_or, hzero]
      exact BitVec.or_zero
    refine { h with status_top := ?_, summary := ?_, busy := ?_ }
    · rw [setCondition_status_and (outside (by decide))]
      exact h.status_top
    · rw [setCondition_status_and (outside (by decide))]
      exact h.summary.trans (by rw [← hun]; rfl)
    · rw [setCondition_status_and (outside (by decide))]
      exact h.busy.trans (by rw [← hun]; rfl)

/-- Writing a tag. -/
theorem setTagAt (h : f.WellFormed) (r : Fin 8) (t : Tag) : (f.setTagAt r t).WellFormed :=
  { h with }

/-- Writing a number that has an encoding. -/
theorem store (h : f.WellFormed) (i : Nat) {x : Extended} (hx : x.HasEncoding) :
    (f.store i x).WellFormed := by
  have hset : (f.setSt i x).WellFormed :=
    { h with
      encodings := by
        intro r
        change (f.regs.set (f.physical i) x)[r.val].HasEncoding
        rw [Vector.getElem_set]
        split
        · exact hx
        · exact h.encodings r }
  exact hset.setTagAt _ _

theorem and_seven_le (b : Byte) : b &&& 7 ≤ 7 := by
  change (b &&& 7).toNat ≤ 7
  rw [BitVec.toNat_and]
  exact Nat.and_le_right

theorem push (h : f.WellFormed) : f.push.WellFormed := { h with top_le := and_seven_le _ }

theorem pop (h : f.WellFormed) : f.pop.WellFormed :=
  { h.setTagAt (f.physical 0) .empty with top_le := and_seven_le _ }

theorem pushNumber (h : f.WellFormed) {x : Extended} (hx : x.HasEncoding) :
    (f.pushNumber x).WellFormed :=
  h.push.store 0 hx

theorem repeat_pop (h : f.WellFormed) (n : Nat) : (Nat.repeat Fpu.pop n f).WellFormed := by
  induction n with
  | zero => exact h
  | succ n ih => exact ih.pop

/-- The contents of a register have an encoding. -/
theorem value (h : f.WellFormed) (i : Nat) : (f.value i).HasEncoding := by
  unfold Fpu.value
  split
  · exact Extended.indefinite_hasEncoding
  · exact h.encodings _

/-- Setting the summary bits anew makes up for all that was wrong with them. -/
theorem summarize (htop : f.top ≤ 7) (hstatus : f.status &&& Status.top = 0)
    (hopcode : f.opcode ≤ 0x7FF) (henc : ∀ r : Fin 8, f.regs[r].HasEncoding) :
    f.summarize.WellFormed := by
  have hun : f.summarize.unmasked f.summarize.status = f.unmasked f.status := by
    have hkeeps : f.summarize.status &&& Status.exceptions = f.status &&& Status.exceptions :=
      setCondition_status_and (by decide) _
    rw [unmasked_eq, hkeeps, unmasked_eq]
    rfl
  have hbits {bit : Word} (hbit : (Status.summary ||| Status.busy) &&& bit = bit) (hne : bit ≠ 0) :
      f.summarize.status &&& bit ≠ 0 ↔ f.unmasked f.status ≠ 0 := by
    change (f.setCondition _ (f.unmasked f.status != 0)).status &&& bit ≠ 0 ↔ _
    by_cases hzero : f.unmasked f.status = 0
    · rw [hzero]
      refine iff_of_false (not_not.2 ?_) (not_not.2 rfl)
      change f.status &&& ~~~(Status.summary ||| Status.busy) &&& bit = 0
      rw [← hbit]
      exact and_not_and_and _ _ _
    · refine iff_of_true ?_ hzero
      rw [bne_iff_ne.2 hzero]
      change (f.status ||| (Status.summary ||| Status.busy)) &&& bit ≠ 0
      rw [BitVec.and_or_distrib_right, hbit]
      exact or_ne_zero_right hne
  exact
    { top_le := htop
      status_top := (setCondition_status_and (by decide) _).trans hstatus
      opcode_le := hopcode
      encodings := henc
      summary := by rw [hun]; exact hbits (by decide) (by decide)
      busy := by rw [hun]; exact hbits (by decide) (by decide) }

/-- Loading a control word. -/
theorem loadControl (h : f.WellFormed) (control : Word) :
    WellFormed (Fpu.summarize { f with control := control }) :=
  summarize h.top_le h.status_top h.opcode_le h.encodings

/-- Whatever an image holds, the state that is loaded from it is well formed. -/
theorem loadImage (image : List Byte) : (loadImage image).WellFormed := by
  refine summarize ?_ (and_not_and_self _ _) ?_ fun r => ?_
  · change (BitVec.setWidth 8 (BitVec.extractLsb' 11 3 _)).toNat ≤ 7
    rw [BitVec.toNat_setWidth]
    exact Nat.le_trans (Nat.mod_le _ _) (Nat.le_of_lt_succ (BitVec.isLt _))
  · change BitVec.toNat (_ &&& 0x7FF) ≤ 0x7FF
    rw [BitVec.toNat_and]
    exact Nat.and_le_right
  · change (Vector.ofFn fun r => imageRegister image r)[r.val].HasEncoding
    rw [Vector.getElem_ofFn]
    exact Extended.ofBytes_hasEncoding _

end WellFormed

/-! ## What raising exceptions leaves alone -/

theorem isPending_setCondition (f : Fpu) {bits : Word} (hb : bits &&& Status.summary = 0)
    (on : Bool) : (f.setCondition bits on).isPending = f.isPending := by
  rw [isPending, setCondition_status_and hb, isPending]

theorem isPending_initial : initial.isPending = false := by decide

theorem top_raise (f : Fpu) (bits : Word) : (f.raise bits).2.top = f.top := by
  unfold raise
  dsimp only
  split <;> rfl

theorem tags_raise (f : Fpu) (bits : Word) : (f.raise bits).2.tags = f.tags := by
  unfold raise
  dsimp only
  split <;> rfl

/-- Exceptions that are masked leave no exception pending. -/
theorem isPending_raise (f : Fpu) {bits : Word} (hb : bits &&& ~~~raisable = 0)
    (hmasked : (f.raise bits).1 = false) : (f.raise bits).2.isPending = f.isPending := by
  unfold raise at hmasked ⊢
  dsimp only at hmasked ⊢
  rw [hmasked]
  exact f.isPending_setCondition (and_eq_zero_of_within hb (by decide)) true

end Fpu

end Ia32
