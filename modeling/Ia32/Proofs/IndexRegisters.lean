import Mathlib.Algebra.Group.Nat.Defs
import Ia32.Proofs.FlagFootprints

/-!
# Registers that step

A string instruction steps its counter and its index registers, by an amount that
is the same each time, and a comparison writes all flags of arithmetic.  Steps of
one register add up, steps of different registers may be taken in any order, and
of several comparisons the last one decides the flags.
-/

namespace Ia32

/-! ## Widths -/

namespace Width

variable {w : Width}

theorem toNat_truncate (w : Width) (x : Dword) : (w.truncate x).toNat = x.toNat % 2 ^ w.bits := by
  cases w with
  | byte => exact Nat.and_two_pow_sub_one_eq_mod x.toNat 8
  | word => exact Nat.and_two_pow_sub_one_eq_mod x.toNat 16
  | dword => exact Nat.and_two_pow_sub_one_eq_mod x.toNat 32

theorem truncate_dword (x : Dword) : Width.dword.truncate x = x := by
  apply BitVec.eq_of_toNat_eq
  rw [toNat_truncate]
  exact Nat.mod_eq_of_lt x.isLt

@[simp] theorem truncate_truncate (w : Width) (x : Dword) :
    w.truncate (w.truncate x) = w.truncate x := by
  unfold truncate
  rw [BitVec.and_assoc, BitVec.and_self]

/-- A sum of a width does not depend on what is above the width in its terms. -/
theorem truncate_truncate_add (w : Width) (x y : Dword) :
    w.truncate (w.truncate x + y) = w.truncate (x + y) := by
  have hdvd : 2 ^ w.bits ∣ 2 ^ 32 := Nat.pow_dvd_pow 2 (by cases w <;> decide)
  apply BitVec.eq_of_toNat_eq
  simp only [toNat_truncate, BitVec.toNat_add, Nat.mod_mod_of_dvd _ hdvd, Nat.mod_add_mod]

end Width

/-! ## Registers -/

namespace Processor

variable {s : Processor} {w : Width} {r r' : Reg} {d d' old value value' : Dword}

/-- Only byte registers are held by another register than the one of their number. -/
theorem holder_of_wide (hw : w ≠ .byte) : holder w r = r := by
  cases w with
  | byte => exact absurd rfl hw
  | word | dword => rfl

theorem reg_of_wide (hw : w ≠ .byte) : s.reg w r = w.truncate (s.regs.get r) := by
  cases w with
  | byte => exact absurd rfl hw
  | word => rfl
  | dword => exact (Width.truncate_dword _).symm

theorem truncate_merge (hw : w ≠ .byte) : w.truncate (merge w r old value) = w.truncate value := by
  cases w with
  | byte => exact absurd rfl hw
  | word => simp [merge, Width.truncate, Width.mask, BitVec.and_or_distrib_right, BitVec.and_assoc]
  | dword => rfl

/-- What is merged into a register twice is merged once, with the second value. -/
theorem merge_merge (hw : w ≠ .byte) :
    merge w r (merge w r old value) value' = merge w r old value' := by
  cases w with
  | byte => exact absurd rfl hw
  | word => simp [merge, BitVec.and_or_distrib_right, BitVec.and_assoc]
  | dword => rfl

theorem merge_truncate (hw : w ≠ .byte) :
    merge w r old (w.truncate value) = merge w r old value := by
  cases w with
  | byte => exact absurd rfl hw
  | word => simp [merge, Width.truncate, Width.mask, BitVec.and_assoc]
  | dword => exact Width.truncate_dword value

theorem merge_self (hw : w ≠ .byte) : merge w r old (w.truncate old) = old := by
  cases w with
  | byte => exact absurd rfl hw
  | word =>
    have hall : (0xFFFF0000 ||| 0xFFFF : Dword) = BitVec.allOnes 32 := by decide
    simp only [merge, Width.truncate, Width.mask, BitVec.and_assoc, BitVec.and_self]
    rw [← BitVec.and_or_distrib_left, hall, BitVec.and_allOnes]
  | dword => exact Width.truncate_dword old

/-! ## Steps of a register -/

/-- Adds to a register, within its width.  The rest of the general register stays. -/
def addReg (s : Processor) (w : Width) (r : Reg) (d : Dword) : Processor :=
  s.setReg w r (s.reg w r + d)

/-- What is above the width of a register is not written. -/
theorem setReg_truncate (hw : w ≠ .byte) :
    s.setReg w r (w.truncate value) = s.setReg w r value := by
  simp only [setReg, merge_truncate hw]

theorem regs_addReg (hw : w ≠ .byte) :
    (s.addReg w r d).regs = s.regs.set r (merge w r (s.regs.get r) (s.regs.get r + d)) := by
  have hvalue : merge w r (s.regs.get r) (s.reg w r + d)
      = merge w r (s.regs.get r) (s.regs.get r + d) := by
    rw [← merge_truncate hw, reg_of_wide hw, Width.truncate_truncate_add, merge_truncate hw]
  simp only [addReg, setReg, holder_of_wide hw, hvalue]

theorem get_addReg (hw : w ≠ .byte) :
    (s.addReg w r d).regs.get r = merge w r (s.regs.get r) (s.regs.get r + d) := by
  rw [regs_addReg hw]
  exact Vector.getElem_set_self r.isLt

theorem get_addReg_of_ne (hw : w ≠ .byte) (hr : r ≠ r') :
    (s.addReg w r d).regs.get r' = s.regs.get r' := by
  rw [regs_addReg hw]
  exact Vector.getElem_set_ne r.isLt r'.isLt fun h => hr (Fin.ext h)

/-- A register that is moved on holds the sum of its width. -/
theorem reg_addReg (hw : w ≠ .byte) : (s.addReg w r d).reg w r = w.truncate (s.reg w r + d) := by
  rw [reg_of_wide hw, get_addReg hw, truncate_merge hw, reg_of_wide hw,
    Width.truncate_truncate_add]

/-- The other registers stay, and so do the byte registers in them. -/
theorem reg_addReg_of_ne (hw : w ≠ .byte) {w' : Width} (hr : r ≠ holder w' r') :
    (s.addReg w r d).reg w' r' = s.reg w' r' := by
  cases w' with
  | byte =>
    simp only [reg, holder] at hr ⊢
    split at hr
    next hlow => simp only [hlow, if_true, get_addReg_of_ne hw hr]
    next hlow => simp only [hlow, if_false, get_addReg_of_ne hw hr]
  | word => exact congrArg (· &&& 0xFFFF) (get_addReg_of_ne hw hr)
  | dword => exact get_addReg_of_ne hw hr

/-- Steps of one register add up. -/
theorem addReg_addReg (hw : w ≠ .byte) :
    (s.addReg w r d).addReg w r d' = s.addReg w r (d + d') := by
  have hsum : merge w r (merge w r (s.regs.get r) (s.regs.get r + d))
      (merge w r (s.regs.get r) (s.regs.get r + d) + d')
        = merge w r (s.regs.get r) (s.regs.get r + (d + d')) := by
    rw [merge_merge hw, ← merge_truncate hw, ← Width.truncate_truncate_add, truncate_merge hw,
      Width.truncate_truncate_add, merge_truncate hw, BitVec.add_assoc]
  have hregs : ((s.addReg w r d).addReg w r d').regs = (s.addReg w r (d + d')).regs := by
    rw [regs_addReg hw, get_addReg hw, hsum, regs_addReg hw, regs_addReg hw, Vector.set_set]
  exact congrArg (fun regs => { s with regs := regs }) hregs

/-- Steps of different registers may be taken in any order. -/
theorem addReg_comm (hw : w ≠ .byte) (hr : r ≠ r') :
    (s.addReg w r d).addReg w r' d' = (s.addReg w r' d').addReg w r d := by
  have hregs : ((s.addReg w r d).addReg w r' d').regs = ((s.addReg w r' d').addReg w r d).regs := by
    rw [regs_addReg hw, get_addReg_of_ne hw hr, regs_addReg hw, Vector.set_comm]
    · rw [regs_addReg hw, get_addReg_of_ne hw hr.symm, regs_addReg hw]
    · exact fun h => hr (Fin.ext h)
  exact congrArg (fun regs => { s with regs := regs }) hregs

theorem addReg_zero (hw : w ≠ .byte) : s.addReg w r 0 = s := by
  have hzero : s.regs.get r + 0 = s.regs.get r := BitVec.add_zero _
  have hregs : (s.addReg w r 0).regs = s.regs := by
    rw [regs_addReg hw, hzero, ← merge_truncate hw, merge_self hw]
    exact Vector.set_getElem_self r.isLt
  exact congrArg (fun regs => { s with regs := regs }) hregs

/-- A step of 16 bits keeps the upper half of every register. -/
theorem high_addReg (r' : Reg) :
    (s.addReg .word r d).regs.get r' &&& 0xFFFF0000 = s.regs.get r' &&& 0xFFFF0000 := by
  have hw : Width.word ≠ .byte := by decide
  by_cases hr : r = r'
  · rw [← hr, get_addReg hw]
    simp [merge, BitVec.and_or_distrib_right, BitVec.and_assoc]
  · rw [get_addReg_of_ne hw hr]

/-- A counter that is not below the amount goes down by it. -/
theorem toNat_reg_subReg (hw : w ≠ .byte) {n : Nat} (hn : n ≤ (s.reg w r).toNat) :
    ((s.addReg w r (-(BitVec.ofNat 32 n))).reg w r).toNat = (s.reg w r).toNat - n := by
  have hlt : (s.reg w r).toNat < 2 ^ w.bits := by
    rw [reg_of_wide hw, Width.toNat_truncate]
    exact Nat.mod_lt _ (Nat.two_pow_pos _)
  have hdiff : (s.reg w r + -(BitVec.ofNat 32 n)).toNat = (s.reg w r).toNat - n := by
    have := (s.reg w r).isLt
    rw [← BitVec.sub_eq_add_neg]
    bv_omega
  rw [reg_addReg hw, Width.toNat_truncate, hdiff]
  exact Nat.mod_eq_of_lt (Nat.lt_of_le_of_lt (Nat.sub_le _ _) hlt)

/-! ## Steps of several registers -/

/-- The processor at another instruction and with other flags. -/
def resumed (s : Processor) (eip flags : Dword) : Processor :=
  { s with eip := eip, eflags := flags }

/-- Adds the same to several registers. -/
def addRegs (s : Processor) (w : Width) (rs : List Reg) (d : Dword) : Processor :=
  rs.foldl (fun s r => s.addReg w r d) s

variable {rs : List Reg}

@[simp] theorem addRegs_cons : s.addRegs w (r :: rs) d = (s.addReg w r d).addRegs w rs d := rfl

/-- Nothing but registers changes. -/
theorem exists_addRegs (s : Processor) (w : Width) (rs : List Reg) (d : Dword) :
    ∃ regs, s.addRegs w rs d = { s with regs := regs } := by
  induction rs generalizing s with
  | nil => exact ⟨s.regs, rfl⟩
  | cons r rs ih =>
    obtain ⟨regs, h⟩ := ih (s.addReg w r d)
    exact ⟨regs, h⟩

/-- Neither the instruction pointer nor the flags are looked at. -/
theorem addRegs_resumed (s : Processor) (w : Width) (rs : List Reg) (d eip flags : Dword) :
    (s.resumed eip flags).addRegs w rs d = (s.addRegs w rs d).resumed eip flags := by
  induction rs generalizing s with
  | nil => rfl
  | cons r rs ih => exact ih (s.addReg w r d)

/-- Registers that are not the same are moved on in any order. -/
theorem addRegs_addReg (hw : w ≠ .byte) (hr : r ∉ rs) :
    (s.addRegs w rs d).addReg w r d' = (s.addReg w r d').addRegs w rs d := by
  induction rs generalizing s with
  | nil => rfl
  | cons r' rs ih =>
    rw [List.mem_cons, not_or] at hr
    rw [addRegs_cons, ih hr.2, addRegs_cons, addReg_comm hw (Ne.symm hr.1)]

/-- Two distances add up. -/
theorem addRegs_addRegs (hw : w ≠ .byte) (hn : rs.Nodup) :
    (s.addRegs w rs d).addRegs w rs d' = s.addRegs w rs (d + d') := by
  induction rs generalizing s with
  | nil => rfl
  | cons r rs ih =>
    rw [List.nodup_cons] at hn
    rw [addRegs_cons, addRegs_cons, addRegs_addReg hw hn.1, addReg_addReg hw, ih hn.2, addRegs_cons]

theorem addRegs_zero (hw : w ≠ .byte) : s.addRegs w rs 0 = s := by
  induction rs with
  | nil => rfl
  | cons r rs ih => rw [addRegs_cons, addReg_zero hw, ih]

/-- With addresses of 16 bits the upper halves of the index registers stay. -/
theorem high_addRegs (r' : Reg) :
    (s.addRegs .word rs d).regs.get r' &&& 0xFFFF0000 = s.regs.get r' &&& 0xFFFF0000 := by
  induction rs generalizing s with
  | nil => rfl
  | cons r rs ih => rw [addRegs_cons, ih, high_addReg]

theorem reg_addRegs_of_ne (hw : w ≠ .byte) {w' : Width} (hr : holder w' r' ∉ rs) :
    (s.addRegs w rs d).reg w' r' = s.reg w' r' := by
  induction rs generalizing s with
  | nil => rfl
  | cons r rs ih =>
    rw [List.mem_cons, not_or] at hr
    rw [addRegs_cons, ih hr.2, reg_addReg_of_ne hw (Ne.symm hr.1)]

theorem reg_addRegs (hw : w ≠ .byte) (hn : rs.Nodup) (hr : r ∈ rs) :
    (s.addRegs w rs d).reg w r = w.truncate (s.reg w r + d) := by
  induction rs generalizing s with
  | nil => cases hr
  | cons r' rs ih =>
    rw [List.nodup_cons] at hn
    rw [addRegs_cons]
    rcases List.mem_cons.mp hr with rfl | hr
    · rw [reg_addRegs_of_ne hw (by rw [holder_of_wide hw]; exact hn.1), reg_addReg hw]
    · have hne : r' ≠ holder w r := by
        rw [holder_of_wide hw]
        exact fun h => hn.1 (h ▸ hr)
      rw [ih hn.2 hr, reg_addReg_of_ne hw hne]

end Processor

/-! ## Flags of comparisons -/

namespace Flags

variable {w : Width} {mask flags flags' : Dword}

/-- Where two flags registers differ they are made equal by the same assignment. -/
theorem SameOutside.assign_both (h : SameOutside mask flags flags') (bits : Dword) (on : Bool) :
    SameOutside (mask &&& ~~~bits) (Flags.assign flags bits on) (Flags.assign flags' bits on) := by
  intro i hi
  cases hb : bits.getLsbD i with
  | true => cases on <;> simp [Flags.assign, hb]
  | false =>
    rw [getLsbD_assign hb, getLsbD_assign hb]
    by_cases hlt : i < 32
    · rw [BitVec.getLsbD_and, BitVec.getLsbD_not, hb, decide_eq_true hlt] at hi
      exact h i (by simpa using hi)
    · rw [BitVec.getLsbD_of_ge _ _ (Nat.le_of_not_lt hlt),
        BitVec.getLsbD_of_ge _ _ (Nat.le_of_not_lt hlt)]

/-- A test of flags outside the mask. -/
theorem SameOutside.test_eq (h : SameOutside mask flags flags') {bits : Dword}
    (hb : bits &&& mask = 0) : test flags' bits = test flags bits := by
  have hsame : flags' &&& bits = flags &&& bits := by
    apply BitVec.eq_of_getLsbD_eq
    intro i _
    have hi : (bits &&& mask).getLsbD i = false := by simp [hb]
    rw [BitVec.getLsbD_and, BitVec.getLsbD_and]
    cases hm : mask.getLsbD i with
    | false => rw [h i hm]
    | true =>
      rw [BitVec.getLsbD_and, hm, Bool.and_true] at hi
      rw [hi, Bool.and_false, Bool.and_false]
  rw [test, test, hsame]

theorem SameOutside.eq_of_empty (h : SameOutside 0 flags flags') : flags' = flags :=
  BitVec.eq_of_getLsbD_eq fun i _ => h i (by simp)

/-- A subtraction does not depend on the flags of arithmetic before it. -/
theorem afterSub_congr (h : SameOutside arithmetic flags flags') (a b result : Dword) :
    afterSub w flags' a b result = afterSub w flags a b result := by
  have hall : SameOutside (arithmetic &&& ~~~overflow &&& ~~~auxiliary &&& ~~~carry &&& ~~~sign &&&
      ~~~zero &&& ~~~parity) (afterSub w flags a b result) (afterSub w flags' a b result) := by
    unfold afterSub afterResult
    exact (((((h.assign_both _ _).assign_both _ _).assign_both _ _).assign_both _ _).assign_both
      _ _).assign_both _ _
  exact (hall.mono (by decide)).eq_of_empty

end Flags

open Flags

variable {w : Width} {flags flags' : Dword}

/-- A comparison leaves the direction of strings alone. -/
theorem AluOp.cmp_direction (w : Width) (flags a b : Dword) :
    test (AluOp.cmp.apply w flags a b).2 direction = test flags direction :=
  (AluOp.sameOutside_apply w .cmp flags a b).test_eq (by decide)

/-- A comparison alone decides the flags of arithmetic. -/
theorem AluOp.cmp_congr (h : SameOutside arithmetic flags flags') (a b : Dword) :
    (AluOp.cmp.apply w flags' a b).2 = (AluOp.cmp.apply w flags a b).2 :=
  afterSub_congr h _ _ _

end Ia32
