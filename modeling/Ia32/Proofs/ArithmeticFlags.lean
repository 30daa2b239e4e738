import Ia32.Alu
import Ia32.Proofs.Footprint
import Ia32.Shift

/-!
# The flags of arithmetic

Arithmetic, shifts and bit instructions set carry, parity, auxiliary carry, zero,
sign and overflow, and leave all other flags alone.
-/

namespace Ia32

namespace Flags

/-- Two flags registers agree outside the flags that arithmetic sets. -/
def SameControl (flags flags' : Dword) : Prop :=
  ∀ i, arithmetic.getLsbD i = false → flags'.getLsbD i = flags.getLsbD i

variable {w : Width} {flags flags' : Dword}

theorem SameControl.refl (flags : Dword) : SameControl flags flags := fun _ _ => rfl

/-- A flag outside the mask is not assigned. -/
theorem getLsbD_assign {mask : Dword} {i : Nat} (h : mask.getLsbD i = false) (on : Bool) :
    (assign flags mask on).getLsbD i = flags.getLsbD i := by
  unfold assign
  split
  · simp only [BitVec.getLsbD_or, h, Bool.or_false]
  · by_cases hi : i < 32
    · simp only [BitVec.getLsbD_and, BitVec.getLsbD_not, h, hi, decide_true, Bool.not_false,
        Bool.and_true]
    · simp only [BitVec.getLsbD_of_ge _ i (Nat.le_of_not_lt hi)]

/-- A mask within the flags of arithmetic has no other flag. -/
theorem getLsbD_of_arithmetic {mask : Dword} (hm : mask &&& ~~~arithmetic = 0) {i : Nat}
    (hi : arithmetic.getLsbD i = false) : mask.getLsbD i = false := by
  have hz : (mask &&& ~~~arithmetic).getLsbD i = false := by simp [hm]
  by_cases h32 : i < 32
  · simpa only [BitVec.getLsbD_and, BitVec.getLsbD_not, hi, h32, decide_true, Bool.not_false,
      Bool.and_true] using hz
  · exact BitVec.getLsbD_of_ge _ i (Nat.le_of_not_lt h32)

/-- Some flags of arithmetic are assigned. -/
theorem SameControl.assign (h : SameControl flags flags') {mask : Dword}
    (hm : mask &&& ~~~arithmetic = 0) (on : Bool) : SameControl flags (assign flags' mask on) :=
  fun i hi => (getLsbD_assign (getLsbD_of_arithmetic hm hi) on).trans (h i hi)

/-- Sign, zero and parity are arithmetic flags. -/
theorem SameControl.afterResult (h : SameControl flags flags') (result : Dword) :
    SameControl flags (afterResult w flags' result) :=
  ((h.assign (by decide) _).assign (by decide) _).assign (by decide) _

/-- A subtraction assigns carry, overflow and the auxiliary flag besides. -/
theorem sameControl_afterSub (a b result : Dword) :
    SameControl flags (afterSub w flags a b result) := by
  refine SameControl.afterResult ?_ result
  refine ((SameControl.refl flags).assign ?_ _).assign ?_ _ |>.assign ?_ _ <;> decide

theorem sameControl_afterAdd (a b carryIn result : Dword) :
    SameControl flags (afterAdd w flags a b carryIn result) := by
  refine SameControl.afterResult ?_ result
  refine ((SameControl.refl flags).assign ?_ _).assign ?_ _ |>.assign ?_ _ <;> decide

theorem sameControl_afterLogic (result : Dword) :
    SameControl flags (afterLogic w flags result) :=
  ((SameControl.refl flags).assign (by decide) false).afterResult result

/-- Carry is put back. -/
theorem SameControl.keepCarry (h : SameControl flags flags') :
    SameControl flags ((flags' &&& ~~~carry) ||| (flags &&& carry)) := by
  intro i hi
  have hc : carry.getLsbD i = false := getLsbD_of_arithmetic (by decide) hi
  have hf : (flags' &&& ~~~carry).getLsbD i = flags'.getLsbD i := getLsbD_assign hc false
  rw [BitVec.getLsbD_or, hf]
  simp [hc, h i hi]

/-- An increment puts carry back, which is an arithmetic flag itself. -/
theorem sameControl_afterInc (a result : Dword) : SameControl flags (afterInc w flags a result) :=
  (sameControl_afterAdd a 1 0 result).keepCarry

theorem sameControl_afterDec (a result : Dword) : SameControl flags (afterDec w flags a result) :=
  (sameControl_afterSub a 1 result).keepCarry

end Flags

open Flags

/-- No operation on two values touches the control flags. -/
theorem AluOp.sameControl_apply (w : Width) (op : AluOp) (flags a b : Dword) :
    SameControl flags (op.apply w flags a b).2 := by
  cases op with
  | add => exact sameControl_afterAdd _ _ _ _
  | adc => exact sameControl_afterAdd _ _ _ _
  | or => exact sameControl_afterLogic _
  | and => exact sameControl_afterLogic _
  | xor => exact sameControl_afterLogic _
  | sub => exact sameControl_afterSub _ _ _
  | sbb => exact sameControl_afterSub _ _ _
  | cmp => exact sameControl_afterSub _ _ _

/-! ## Shifts -/

namespace ShiftOp

theorem sameControl_assignOverflow {flags flags' : Dword} (h : SameControl flags flags')
    (count : Nat) (on : Bool) : SameControl flags (assignOverflow count flags' on) := by
  unfold assignOverflow
  split
  · exact h.assign (by decide) on
  · exact h

theorem sameControl_rotated {count : Nat} {flags result : Dword} {carry overflow : Bool} :
    SameControl flags (rotated count flags result carry overflow).flags :=
  sameControl_assignOverflow ((SameControl.refl flags).assign (by decide) carry) count overflow

/-- Neither does a shift, for any count. -/
theorem sameControl_shifted {w : Width} {count : Nat} {flags result : Dword}
    {carry overflow : Bool} : SameControl flags (shifted w count flags result carry overflow).flags :=
  sameControl_assignOverflow ((SameControl.refl flags).assign (by decide) carry) count overflow
    |>.afterResult result

/-- A shift or rotate that has an outcome goes through one of the two. -/
theorem sameControl_apply {w : Width} {op : ShiftOp} {flags value : Dword} {count : Nat}
    {outcome : Outcome} (h : op.apply w flags value count = some outcome) :
    SameControl flags outcome.flags := by
  unfold apply at h
  split at h
  next => cases h
  next =>
    cases op with
    | rol => cases h; exact sameControl_rotated
    | ror => cases h; exact sameControl_rotated
    | rcl =>
      dsimp only at h
      split at h
      · cases h
      · cases h; exact sameControl_rotated
    | rcr =>
      dsimp only at h
      split at h
      · cases h
      · cases h; exact sameControl_rotated
    | shl => cases h; exact sameControl_shifted
    | shr => cases h; exact sameControl_shifted
    | sar => cases h; exact sameControl_shifted

end ShiftOp

theorem sameControl_doubleShift {w : Width} {direction : Direction} {flags value fill : Dword}
    {count : Nat} {outcome : Outcome}
    (h : doubleShift w direction flags value fill count = some outcome) :
    SameControl flags outcome.flags := by
  unfold doubleShift at h
  split at h
  · cases h
  · cases h
    exact ShiftOp.sameControl_shifted

end Ia32
