import Mathlib.Logic.Function.Iterate
import Ia32.Proofs.ShiftForms

/-!
# Shifts by one bit at a time

A shift by several bits is a shift by one bit, done several times with the carry
handed on.  Each operation moves a string of bits: the operand with the carry
above it when bits go to the left, and with the carry below it when they go to the
right, so that the carry is the last bit that has left the operand
(`ShiftOp.Moves`).  Moving by a number of bits and then by one more is moving by
one more bit, and where a string has moved to fixes the operand and the carry.

A double shift moves the pair of its operand and of the word that fills it.
-/

namespace Ia32

/-! ## Words with one bit more -/

section Strings

variable {k n : Nat} (x : BitVec k) (c : Bool)

/-- A word that moves up drops the bit above it and takes its own bits there. -/
theorem cons_shiftLeft (hn : 0 < n) :
    BitVec.cons c x <<< n = BitVec.cons (decide (n ≤ k) && x.getLsbD (k - n)) (x <<< n) := by
  apply BitVec.eq_of_getLsbD_eq
  intro i hi
  rw [BitVec.getLsbD_shiftLeft, BitVec.getLsbD_cons, BitVec.getLsbD_cons, BitVec.getLsbD_shiftLeft]
  rcases Nat.lt_succ_iff_lt_or_eq.1 hi with hlt | rfl
  · have hne : i - n ≠ k := by omega
    simp only [hi, hlt, hne, hlt.ne, if_false, decide_true]
  · by_cases h : n ≤ i
    · have hne : i - n ≠ i := by omega
      simp [h, hne, Nat.not_lt.2 h]
    · simp [h, Nat.not_le.1 h]

/-- A word that moves down drops the bit below it and takes its own bits there. -/
theorem concat_ushiftRight (hn : 0 < n) :
    x.concat c >>> n = (x >>> n).concat (x.getLsbD (n - 1)) := by
  apply BitVec.eq_of_getLsbD_eq
  intro i _
  rw [BitVec.getLsbD_ushiftRight, BitVec.getLsbD_concat, BitVec.getLsbD_concat,
    BitVec.getLsbD_ushiftRight, if_neg (by omega)]
  cases i with
  | zero => rfl
  | succ i => exact congrArg x.getLsbD (by omega)

/-- The same for an arithmetic shift, where a count above the width drops copies of the top bit. -/
theorem concat_sshiftRight (hn : 0 < n) (hk : 0 < k) : (x.concat c).sshiftRight n =
    (x.sshiftRight n).concat (if n - 1 < k then x.getLsbD (n - 1) else x.msb) := by
  have hmsb : (x.concat c).msb = x.msb := by rw [BitVec.msb_concat, if_pos hk]
  apply BitVec.eq_of_getLsbD_eq
  intro i _
  rw [BitVec.getLsbD_sshiftRight, BitVec.getLsbD_concat, BitVec.getLsbD_concat,
    BitVec.getLsbD_sshiftRight, hmsb]
  cases i with
  | zero =>
    have hlt : n < k + 1 ↔ n - 1 < k := by omega
    simp [hn.ne', hlt]
  | succ i =>
    have hindex : n + (i + 1) - 1 = n + i := by omega
    have hlt : n + (i + 1) < k + 1 ↔ n + i < k := by omega
    simp [hindex, hlt]

end Strings

/-! ## Operand and carry -/

namespace Outcome

variable (w : Width) (s : Outcome)

/-- The operand, as a word of its width. -/
def bits : BitVec w.bits := s.result.setWidth w.bits

/-- Carry. -/
def carry : Bool := Flags.test s.flags Flags.carry

/-- The operand with the carry above it. -/
def carryAbove : BitVec (w.bits + 1) := BitVec.cons s.carry (s.bits w)

/-- The operand with the carry below it. -/
def carryBelow : BitVec (w.bits + 1) := BitVec.concat (s.bits w) s.carry

/-- Two outcomes have the same operand at a width, and the same carry. -/
structure SameAt (w : Width) (s s' : Outcome) : Prop where
  bits : s'.bits w = s.bits w
  carry : s'.carry = s.carry

variable {w : Width} {s s' : Outcome}

/-- Operand and carry can be read off the string. -/
theorem sameAt_of_carryAbove (h : s'.carryAbove w = s.carryAbove w) : s.SameAt w s' := by
  have hbit (i : Nat) := congrArg (BitVec.getLsbD · i) h
  simp only [carryAbove, BitVec.getLsbD_cons] at hbit
  constructor
  · apply BitVec.eq_of_getLsbD_eq
    intro i hi
    simpa only [Nat.ne_of_lt hi, if_false] using hbit i
  · simpa only [if_true] using hbit w.bits

theorem sameAt_of_carryBelow (h : s'.carryBelow w = s.carryBelow w) : s.SameAt w s' := by
  have hbit (i : Nat) := congrArg (BitVec.getLsbD · i) h
  simp only [carryBelow, BitVec.getLsbD_concat] at hbit
  constructor
  · apply BitVec.eq_of_getLsbD_eq
    intro i _
    simpa only [Nat.add_one_ne_zero, if_false, Nat.add_sub_cancel] using hbit (i + 1)
  · simpa only [if_true] using hbit 0

end Outcome

/-! ## Moves -/

namespace ShiftOp

/-- The operand and the flags after a shift.  They stay where the shift has no outcome. -/
def after (w : Width) (op : ShiftOp) (count : Nat) (s : Outcome) : Outcome :=
  (op.apply w s.flags s.result count).getD s

/-- An operation has moved the bits of an operand by a number of places. -/
def Moves (w : Width) (n : Nat) (s s' : Outcome) : ShiftOp → Prop
  | .shl => s'.carryAbove w = s.carryAbove w <<< n
  | .shr => s'.carryBelow w = s.carryBelow w >>> n
  | .sar => s'.carryBelow w = (s.carryBelow w).sshiftRight n
  | .rol => s'.bits w = (s.bits w).rotateLeft n ∧ s'.carry = (s'.bits w).getLsbD 0
  | .ror => s'.bits w = (s.bits w).rotateRight n ∧ s'.carry = (s'.bits w).msb
  | .rcl => s'.carryAbove w = (s.carryAbove w).rotateLeft n
  | .rcr => s'.carryAbove w = (s.carryAbove w).rotateRight n

variable {w : Width} {op : ShiftOp} {m n : Nat} {s s' s'' : Outcome}

/-- Two moves to the same side are one move. -/
theorem Moves.trans (h : op.Moves w m s s') (h' : op.Moves w n s' s'') :
    op.Moves w (m + n) s s'' := by
  cases op with
  | shl => exact h'.trans (by rw [h, BitVec.shiftLeft_add])
  | shr => exact h'.trans (by rw [h, BitVec.shiftRight_add])
  | sar => exact h'.trans (by rw [h, BitVec.sshiftRight_add])
  | rol => exact ⟨h'.1.trans (by rw [h.1, rotateLeft_rotateLeft]), h'.2⟩
  | ror => exact ⟨h'.1.trans (by rw [h.1, rotateRight_rotateRight]), h'.2⟩
  | rcl => exact h'.trans (by rw [h, rotateLeft_rotateLeft])
  | rcr => exact h'.trans (by rw [h, rotateRight_rotateRight])

/-- Where the bits have moved to fixes the operand and the carry. -/
theorem Moves.sameAt (h : op.Moves w n s s') (h' : op.Moves w n s s'') : s'.SameAt w s'' := by
  cases op with
  | shl => exact Outcome.sameAt_of_carryAbove (Eq.trans h' (Eq.symm h))
  | shr => exact Outcome.sameAt_of_carryBelow (Eq.trans h' (Eq.symm h))
  | sar => exact Outcome.sameAt_of_carryBelow (Eq.trans h' (Eq.symm h))
  | rol =>
    have hbits := h'.1.trans h.1.symm
    exact ⟨hbits, by rw [h.2, h'.2, hbits]⟩
  | ror =>
    have hbits := h'.1.trans h.1.symm
    exact ⟨hbits, by rw [h.2, h'.2, hbits]⟩
  | rcl => exact Outcome.sameAt_of_carryAbove (Eq.trans h' (Eq.symm h))
  | rcr => exact Outcome.sameAt_of_carryAbove (Eq.trans h' (Eq.symm h))

/-! ### One operation -/

section Carry

variable (w : Width) (count : Nat) (flags result : Dword) (carry overflow : Bool)

theorem test_assignOverflow {mask : Dword} (hm : mask &&& Flags.overflow = 0) :
    Flags.test (assignOverflow count flags overflow) mask = Flags.test flags mask := by
  unfold assignOverflow
  split
  · exact Flags.test_assign_of_disjoint hm flags overflow
  · rfl

/-- Carry is assigned first, and neither overflow nor the flags of the result are the same bit. -/
theorem carry_shifted : (shifted w count flags result carry overflow).carry = carry := by
  rw [Outcome.carry, shifted, Flags.test_afterResult (by decide),
    test_assignOverflow _ _ _ (by decide), Flags.test_assign_self (by decide)]

/-- A rotate assigns carry in the same way. -/
theorem carry_rotated : (rotated count flags result carry overflow).carry = carry := by
  rw [Outcome.carry, rotated, test_assignOverflow _ _ _ (by decide),
    Flags.test_assign_self (by decide)]

end Carry

variable {w : Width} {op : ShiftOp} {n : Nat} {s : Outcome}

/-! ### Moves of an operand -/

/-- The carry is the bit that comes to stand above the operand, if it comes from the operand. -/
theorem moves_shl (hn : 0 < n) (s : Outcome) :
    ShiftOp.shl.Moves w n s (ShiftOp.shl.after w n s) := by
  rw [after, apply_shl _ _ hn, Option.getD_some, Moves, Outcome.carryAbove, Outcome.carryAbove,
    cons_shiftLeft _ _ hn, carry_shifted]
  exact congrArg (BitVec.cons _) (Width.setWidth_setWidth_bits w _)

/-- The carry is the bit that comes to stand below the operand. -/
theorem moves_shr (hn : 0 < n) (s : Outcome) :
    ShiftOp.shr.Moves w n s (ShiftOp.shr.after w n s) := by
  rw [after, apply_shr _ _ hn, Option.getD_some, Moves, Outcome.carryBelow, Outcome.carryBelow,
    concat_ushiftRight _ _ hn, carry_shifted]
  exact congrArg (BitVec.concat · _) (Width.setWidth_setWidth_bits w _)

/-- The same, with copies of the top bit from above. -/
theorem moves_sar (hn : 0 < n) (hlt : n < 32) (s : Outcome) :
    ShiftOp.sar.Moves w n s (ShiftOp.sar.after w n s) := by
  rw [after, apply_sar _ _ hn hlt, Option.getD_some, Moves, Outcome.carryBelow, Outcome.carryBelow,
    concat_sshiftRight _ _ hn w.bits_pos, carry_shifted]
  exact congrArg (BitVec.concat · _) (Width.setWidth_setWidth_bits w _)

/-- A rotate copies to carry the bit that has come around. -/
theorem moves_rol (hn : 0 < n) (s : Outcome) :
    ShiftOp.rol.Moves w n s (ShiftOp.rol.after w n s) := by
  have hbits : (ShiftOp.rol.after w n s).bits w = (s.bits w).rotateLeft n := by
    rw [after, apply_rol _ _ hn, Option.getD_some, Outcome.bits, rotated,
      Width.setWidth_setWidth_bits, Outcome.bits]
  refine ⟨hbits, ?_⟩
  rw [hbits, after, apply_rol _ _ hn, Option.getD_some, carry_rotated, Outcome.bits]

theorem moves_ror (hn : 0 < n) (s : Outcome) :
    ShiftOp.ror.Moves w n s (ShiftOp.ror.after w n s) := by
  have hbits : (ShiftOp.ror.after w n s).bits w = (s.bits w).rotateRight n := by
    rw [after, apply_ror _ _ hn, Option.getD_some, Outcome.bits, rotated,
      Width.setWidth_setWidth_bits, Outcome.bits]
  refine ⟨hbits, ?_⟩
  rw [hbits, after, apply_ror _ _ hn, Option.getD_some, carry_rotated, Outcome.bits]

/-- A rotate through carry turns the string as a whole.  If it comes back to where it was, there is
no outcome and nothing to change. -/
theorem moves_rcl (hn : 0 < n) (s : Outcome) :
    ShiftOp.rcl.Moves w n s (ShiftOp.rcl.after w n s) := by
  rw [after, apply_rcl _ _ hn, Moves]
  split
  next h => rw [Option.getD_none, rotateLeft_of_mod_eq_zero _ h]
  next =>
    rw [Option.getD_some, Outcome.carryAbove, carry_rotated, Outcome.bits, rotated,
      Width.setWidth_setWidth_bits, BitVec.cons_msb_setWidth]
    rfl

theorem moves_rcr (hn : 0 < n) (s : Outcome) :
    ShiftOp.rcr.Moves w n s (ShiftOp.rcr.after w n s) := by
  rw [after, apply_rcr _ _ hn, Moves]
  split
  next h => rw [Option.getD_none, rotateRight_of_mod_eq_zero _ h]
  next =>
    rw [Option.getD_some, Outcome.carryAbove, carry_rotated, Outcome.bits, rotated,
      Width.setWidth_setWidth_bits, BitVec.cons_msb_setWidth]
    rfl

/-- One operation with a count. -/
theorem moves_after (hn : 0 < n) (hlt : n < 32) (op : ShiftOp) (s : Outcome) :
    op.Moves w n s (op.after w n s) := by
  cases op with
  | rol => exact moves_rol hn s
  | ror => exact moves_ror hn s
  | rcl => exact moves_rcl hn s
  | rcr => exact moves_rcr hn s
  | shl => exact moves_shl hn s
  | shr => exact moves_shr hn s
  | sar => exact moves_sar hn hlt s

/-- Several operations by one bit. -/
theorem moves_iterate (hn : 0 < n) (op : ShiftOp) (s : Outcome) :
    op.Moves w n s ((op.after w 1)^[n] s) := by
  have hone (s : Outcome) : op.Moves w 1 s (op.after w 1 s) :=
    moves_after Nat.one_pos (by decide) op s
  induction n, hn using Nat.le_induction with
  | base => exact hone s
  | succ n _ ih =>
    rw [Function.iterate_succ_apply']
    exact ih.trans (hone _)

/-! ### Values without bits above the width -/

/-- An operand without bits above the width stays one. -/
theorem truncate_after (hn : 0 < n) (hlt : n < 32) (hs : w.truncate s.result = s.result)
    (op : ShiftOp) : w.truncate (op.after w n s).result = (op.after w n s).result := by
  unfold after
  cases op with
  | shl => rw [apply_shl _ _ hn]; exact Width.truncate_setWidth w _
  | shr => rw [apply_shr _ _ hn]; exact Width.truncate_setWidth w _
  | sar => rw [apply_sar _ _ hn hlt]; exact Width.truncate_setWidth w _
  | rol => rw [apply_rol _ _ hn]; exact Width.truncate_setWidth w _
  | ror => rw [apply_ror _ _ hn]; exact Width.truncate_setWidth w _
  | rcl =>
    rw [apply_rcl _ _ hn]
    split
    · exact hs
    · exact Width.truncate_setWidth w _
  | rcr =>
    rw [apply_rcr _ _ hn]
    split
    · exact hs
    · exact Width.truncate_setWidth w _

theorem truncate_iterate (hs : w.truncate s.result = s.result) (op : ShiftOp) (n : Nat) :
    w.truncate ((op.after w 1)^[n] s).result = ((op.after w 1)^[n] s).result := by
  induction n with
  | zero => exact hs
  | succ n ih =>
    rw [Function.iterate_succ_apply']
    exact truncate_after Nat.one_pos (by decide) ih op

end ShiftOp

/-! ### Flags of the result -/

namespace Flags

variable {w : Width} {flags flags' r r' : Dword}

/-- Two flags registers tell the same of a result. -/
structure SameStatus (flags flags' : Dword) : Prop where
  zero : test flags' zero = test flags zero
  sign : test flags' sign = test flags sign
  parity : test flags' parity = test flags parity

/-- What flags tell of a result depends on the result alone. -/
theorem Describes.sameStatus (h : Describes w r flags) (h' : Describes w r' flags')
    (hr : r'.setWidth w.bits = r.setWidth w.bits) : SameStatus flags flags' := by
  have htruncate : w.truncate r' = w.truncate r := by
    rw [Width.truncate_eq_setWidth, hr, ← Width.truncate_eq_setWidth]
  have hbit (i : Nat) (hi : i ∈ List.range 8) : r'.getLsbD i = true ↔ r.getLsbD i = true := by
    have h8 : 8 ≤ w.bits := by cases w <;> decide
    have hlt : i < w.bits := Nat.lt_of_lt_of_le (List.mem_range.1 hi) h8
    rw [← Width.getLsbD_truncate_of_lt hlt, htruncate, Width.getLsbD_truncate_of_lt hlt]
  constructor
  · rw [Bool.eq_iff_iff, h.zero, h'.zero, Width.toNat, Width.toNat, htruncate]
  · rw [Bool.eq_iff_iff, h.sign, h'.sign, ← Width.toInt_truncate, htruncate, Width.toInt_truncate]
  · rw [Bool.eq_iff_iff, h.parity, h'.parity, List.countP_congr hbit]

end Flags

namespace ShiftOp

variable {w : Width} {op : ShiftOp} {n : Nat}

/-- Shifts set the flags that tell of the result; rotates do not. -/
def isShift : ShiftOp → Bool
  | .shl | .shr | .sar => true
  | .rol | .ror | .rcl | .rcr => false

/-- A shift sets the flags of its result. -/
theorem describes_after (hn : 0 < n) (hlt : n < 32) (h : op.isShift = true) (s : Outcome) :
    Flags.Describes w (op.after w n s).result (op.after w n s).flags := by
  cases op with
  | rol | ror | rcl | rcr => cases h
  | shl => rw [after, apply_shl _ _ hn]; exact Flags.describes_afterResult w _ _
  | shr => rw [after, apply_shr _ _ hn]; exact Flags.describes_afterResult w _ _
  | sar => rw [after, apply_sar _ _ hn hlt]; exact Flags.describes_afterResult w _ _

/-- The last of several shifts sets the flags of its result. -/
theorem describes_iterate (hn : 0 < n) (h : op.isShift = true) (s : Outcome) :
    Flags.Describes w ((op.after w 1)^[n] s).result ((op.after w 1)^[n] s).flags := by
  obtain ⟨k, rfl⟩ := Nat.exists_eq_add_of_lt hn
  rw [Nat.zero_add, Function.iterate_succ_apply']
  exact describes_after Nat.one_pos (by decide) h _

end ShiftOp

/-! ## Double shifts -/

/-- An operand with the word that fills it, and the bit that left the operand last. -/
structure Filled (w : Width) where
  /-- The operand. -/
  operand : BitVec w.bits
  /-- The word from which bits move into the operand. -/
  fill : BitVec w.bits
  /-- The last bit that has left the operand. -/
  carry : Bool

namespace Filled

variable {w : Width} {n : Nat} {s : Filled w}

/-- Shifts an operand by one bit and takes the next bit of the word that fills it. -/
def shift : Direction → Filled w → Filled w
  | .left, s => ⟨(s.operand.concat s.fill.msb).setWidth w.bits, s.fill <<< 1, s.operand.msb⟩
  | .right, s =>
    ⟨(BitVec.cons (s.fill.getLsbD 0) s.operand >>> 1).setWidth w.bits, s.fill >>> 1,
      s.operand.getLsbD 0⟩

/-- The operand and the word that fills it, as they stand next to each other. -/
def string : Direction → Filled w → BitVec (w.bits + w.bits)
  | .left, s => s.operand ++ s.fill
  | .right, s => s.fill ++ s.operand

/-- The bit that leaves the one word enters the other. -/
theorem string_shift_left (s : Filled w) : (s.shift .left).string .left = s.string .left <<< 1 := by
  apply BitVec.eq_of_getLsbD_eq
  intro i hi
  have hpos := w.bits_pos
  simp only [string, shift, BitVec.getLsbD_append, BitVec.getLsbD_shiftLeft,
    BitVec.getLsbD_setWidth, BitVec.getLsbD_concat, BitVec.msb_eq_getLsbD_last]
  rcases Nat.lt_trichotomy i w.bits with h | rfl | h
  · have hlt : i - 1 < w.bits := by omega
    simp [h, hi, hlt]
  · simp [hi, hpos, hpos.ne']
  · have hne : i - w.bits ≠ 0 := by omega
    have hge : ¬i - 1 < w.bits := by omega
    have hindex : i - 1 - w.bits = i - w.bits - 1 := by omega
    have hlow : i - w.bits < w.bits := by omega
    have hlt : ¬i < w.bits := by omega
    have hone : ¬i < 1 := by omega
    simp only [hi, hne, hge, hindex, hlow, hlt, hone, if_false, decide_true, decide_false,
      Bool.not_false, Bool.true_and]

theorem string_shift_right (s : Filled w) :
    (s.shift .right).string .right = s.string .right >>> 1 := by
  apply BitVec.eq_of_getLsbD_eq
  intro i hi
  have hpos := w.bits_pos
  simp only [string, shift, BitVec.getLsbD_append, BitVec.getLsbD_ushiftRight,
    BitVec.getLsbD_setWidth, BitVec.getLsbD_cons]
  rcases Nat.lt_trichotomy (1 + i) w.bits with h | h | h
  · have hlt : i < w.bits := by omega
    simp only [h, hlt, h.ne, if_true, if_false, decide_true, Bool.true_and]
  · have hlt : i < w.bits := by omega
    simp only [h, hlt, lt_irrefl, if_true, if_false, decide_true, Bool.true_and, Nat.sub_self]
  · have hge : ¬i < w.bits := by omega
    have hge' : ¬1 + i < w.bits := by omega
    have hindex : 1 + (i - w.bits) = 1 + i - w.bits := by omega
    simp only [hge, hge', hindex, if_false]

/-- By induction, the pair is shifted as one word. -/
theorem string_iterate_left (n : Nat) (s : Filled w) :
    ((shift .left)^[n] s).string .left = s.string .left <<< n := by
  induction n with
  | zero => exact (BitVec.shiftLeft_zero _).symm
  | succ n ih => rw [Function.iterate_succ_apply', string_shift_left, ih, BitVec.shiftLeft_add]

theorem string_iterate_right (n : Nat) (s : Filled w) :
    ((shift .right)^[n] s).string .right = s.string .right >>> n := by
  induction n with
  | zero => exact (BitVec.ushiftRight_zero _).symm
  | succ n ih => rw [Function.iterate_succ_apply', string_shift_right, ih, BitVec.shiftRight_add]

/-- The bit that leaves the operand on the left comes from as far below its top as the operand has
been shifted. -/
theorem carry_iterate_left (hn : 0 < n) (hle : n ≤ w.bits) (s : Filled w) :
    ((shift .left)^[n] s).carry = s.operand.getLsbD (w.bits - n) := by
  obtain ⟨k, rfl⟩ := Nat.exists_eq_add_of_lt hn
  have hstring := congrArg (BitVec.getLsbD · (w.bits + (w.bits - 1))) (string_iterate_left k s)
  have hindex : w.bits + (w.bits - 1) - k - w.bits = w.bits - (0 + k + 1) := by omega
  have htop : w.bits + (w.bits - 1) < w.bits + w.bits := by omega
  have hlow : ¬w.bits + (w.bits - 1) < w.bits := by omega
  have hlow' : ¬w.bits + (w.bits - 1) - k < w.bits := by omega
  have hk : ¬w.bits + (w.bits - 1) < k := by omega
  simp only [string, BitVec.getLsbD_append, BitVec.getLsbD_shiftLeft, htop, hlow, hlow', hk, hindex,
    Nat.add_sub_cancel_left, if_false, decide_true, decide_false, Bool.not_false, Bool.true_and]
    at hstring
  rw [Nat.zero_add, Function.iterate_succ_apply']
  rw [Nat.zero_add] at hstring
  exact (BitVec.msb_eq_getLsbD_last _).trans hstring

theorem carry_iterate_right (hn : 0 < n) (hle : n ≤ w.bits) (s : Filled w) :
    ((shift .right)^[n] s).carry = s.operand.getLsbD (n - 1) := by
  obtain ⟨k, rfl⟩ := Nat.exists_eq_add_of_lt hn
  have hstring := congrArg (BitVec.getLsbD · 0) (string_iterate_right k s)
  have hk : k < w.bits := by omega
  simp only [string, BitVec.getLsbD_append, BitVec.getLsbD_ushiftRight, w.bits_pos, hk,
    Nat.add_zero, if_true] at hstring
  rw [Nat.zero_add, Function.iterate_succ_apply', shift, hstring, Nat.add_sub_cancel]

end Filled

/-- An outcome has the operand and the carry of a pair, and its flags tell of the operand. -/
structure Filled.IsHeldBy {w : Width} (pair : Filled w) (outcome : Outcome) : Prop where
  operand : outcome.result = pair.operand.setWidth 32
  carry : outcome.carry = pair.carry
  flags : Flags.Describes w outcome.result outcome.flags

/-- A double shift takes the operand and the carry from where they stand after as many shifts of the
pair. -/
theorem doubleShift_isHeldBy {w : Width} {n : Nat} (hn : 0 < n) (hle : n ≤ w.bits)
    (direction : Direction) (fill : Dword) (s : Outcome) :
    ∃ outcome, doubleShift w direction s.flags s.result fill n = some outcome ∧
      ((Filled.shift direction)^[n] ⟨s.bits w, fill.setWidth w.bits, s.carry⟩).IsHeldBy
        outcome := by
  have hzero : (n = 0 || w.bits < n) = false := by
    simp only [decide_eq_false hn.ne', decide_eq_false (Nat.not_lt.2 hle), Bool.or_false]
  have hwide : w.bits + w.bits ≤ 64 := Nat.add_le_add w.bits_le w.bits_le
  have hpart : w.bits ≤ 64 := Nat.le_trans (Nat.le_add_right _ _) hwide
  rw [doubleShift, hzero, if_neg Bool.false_ne_true]
  cases direction with
  | left =>
    have hbits := congrArg (BitVec.extractLsb' w.bits w.bits)
      (Filled.string_iterate_left n ⟨s.bits w, fill.setWidth w.bits, s.carry⟩)
    have hcarry := Filled.carry_iterate_left hn hle ⟨s.bits w, fill.setWidth w.bits, s.carry⟩
    refine ⟨_, rfl, ⟨?_, ?_, Flags.describes_afterResult w _ _⟩⟩
    · rw [ShiftOp.shifted, Width.truncate_or_truncate, Width.truncate_setWidth_wide,
        BitVec.setWidth_ushiftRight_eq_extractLsb, ← BitVec.extractLsb'_setWidth_of_le (le_refl _),
        BitVec.setWidth_shiftLeft_of_le hwide, BitVec.setWidth_setWidth_of_le _ hwide,
        BitVec.setWidth_eq]
      exact congrArg (BitVec.setWidth 32) (hbits.symm.trans BitVec.extractLsb'_append_eq_left)
    · rw [ShiftOp.carry_shifted, hcarry, Width.getLsbD_truncate_eq, Outcome.bits]
  | right =>
    have hbits := congrArg (BitVec.setWidth w.bits)
      (Filled.string_iterate_right n ⟨s.bits w, fill.setWidth w.bits, s.carry⟩)
    have hcarry := Filled.carry_iterate_right hn hle ⟨s.bits w, fill.setWidth w.bits, s.carry⟩
    refine ⟨_, rfl, ⟨?_, ?_, Flags.describes_afterResult w _ _⟩⟩
    · rw [ShiftOp.shifted, Width.truncate_or_truncate, Width.truncate_setWidth_wide,
        ← BitVec.setWidth_ushiftRight hwide, BitVec.setWidth_setWidth_of_le _ hpart]
      exact congrArg (BitVec.setWidth 32) (hbits.symm.trans BitVec.setWidth_append_eq_right)
    · rw [ShiftOp.carry_shifted, hcarry, Width.getLsbD_truncate_eq, Outcome.bits]

/-! ## Shifts by several bits -/

/-- A shift by several bits is as many shifts by one bit, the carry handed on from each to the
next.  A double shift is as many shifts of its operand with the word that fills it.  So a rotation
to one side takes back a rotation to the other, and one through carry takes back the carry too. -/
theorem shift_eq_iterate (w : Width) {n : Nat} (hn : 0 < n) (hlt : n < 32) (s : Outcome) :
    (∀ op : ShiftOp, (op.after w n s).SameAt w ((op.after w 1)^[n] s) ∧
      (w.truncate s.result = s.result →
        (op.after w n s).result = ((op.after w 1)^[n] s).result) ∧
      (op.isShift = true → Flags.SameStatus (op.after w n s).flags ((op.after w 1)^[n] s).flags)) ∧
    (n ≤ w.bits → ∀ direction fill, ∃ outcome,
      doubleShift w direction s.flags s.result fill n = some outcome ∧
        ((Filled.shift direction)^[n] ⟨s.bits w, fill.setWidth w.bits, s.carry⟩).IsHeldBy
          outcome) ∧
    ((ShiftOp.ror.after w n (ShiftOp.rol.after w n s)).bits w = s.bits w ∧
      (ShiftOp.rol.after w n (ShiftOp.ror.after w n s)).bits w = s.bits w) ∧
    s.SameAt w (ShiftOp.rcr.after w n (ShiftOp.rcl.after w n s)) ∧
    s.SameAt w (ShiftOp.rcl.after w n (ShiftOp.rcr.after w n s)) := by
  have hmoves (op : ShiftOp) (s : Outcome) : op.Moves w n s (op.after w n s) :=
    ShiftOp.moves_after hn hlt op s
  refine ⟨fun op => ?iterated, ?double, ?rotated, ?left, ?right⟩
  case iterated =>
    have hsame : (op.after w n s).SameAt w ((op.after w 1)^[n] s) :=
      (hmoves op s).sameAt (ShiftOp.moves_iterate hn op s)
    refine ⟨hsame, fun hs => ?_, fun h => (ShiftOp.describes_after hn hlt h s).sameStatus
      (ShiftOp.describes_iterate hn h s) hsame.bits⟩
    rw [← ShiftOp.truncate_after hn hlt hs op, ← ShiftOp.truncate_iterate hs op n,
      Width.truncate_eq_setWidth, Width.truncate_eq_setWidth]
    exact congrArg (BitVec.setWidth 32) hsame.bits.symm
  case double =>
    exact fun hle direction fill => doubleShift_isHeldBy hn hle direction fill s
  case rotated =>
    constructor
    · rw [(hmoves .ror _).1, (hmoves .rol s).1, rotateRight_rotateLeft]
    · rw [(hmoves .rol _).1, (hmoves .ror s).1, rotateLeft_rotateRight]
  case left =>
    refine Outcome.sameAt_of_carryAbove (Eq.trans (hmoves .rcr _) ?_)
    rw [show (ShiftOp.rcl.after w n s).carryAbove w = _ from hmoves .rcl s, rotateRight_rotateLeft]
  case right =>
    refine Outcome.sameAt_of_carryAbove (Eq.trans (hmoves .rcl _) ?_)
    rw [show (ShiftOp.rcr.after w n s).carryAbove w = _ from hmoves .rcr s, rotateLeft_rotateRight]

/-- Twelve places are more than a byte has, and fewer than a word. -/
theorem shift_eq_iterate_twelve :
    (ShiftOp.rcl.after .byte 12 ⟨0x81, 1⟩).SameAt .byte
        ((ShiftOp.rcl.after .byte 1)^[12] ⟨0x81, 1⟩) ∧
      (ShiftOp.shl.after .byte 12 ⟨0x81, 1⟩).result =
        ((ShiftOp.shl.after .byte 1)^[12] ⟨0x81, 1⟩).result ∧
      Flags.SameStatus (ShiftOp.shl.after .byte 12 ⟨0x81, 1⟩).flags
        ((ShiftOp.shl.after .byte 1)^[12] ⟨0x81, 1⟩).flags ∧
      ∃ outcome, doubleShift .word .left 1 0x8001 0x1234 12 = some outcome ∧
        ((Filled.shift .left)^[12] (⟨0x8001, 0x1234, true⟩ : Filled .word)).IsHeldBy outcome := by
  have hbyte := (shift_eq_iterate .byte (by decide : 0 < 12) (by decide) ⟨0x81, 1⟩).1
  have hword := (shift_eq_iterate .word (by decide : 0 < 12) (by decide) ⟨0x8001, 1⟩).2.1
  obtain ⟨-, hresult, hstatus⟩ := hbyte .shl
  exact ⟨(hbyte .rcl).1, hresult (by decide), hstatus rfl, hword (by decide) .left 0x1234⟩

end Ia32
