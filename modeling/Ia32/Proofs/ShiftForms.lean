import Ia32.Proofs.IntegerArithmetic

/-!
# Shifts of words

The outcomes of shifts are computed in words that are wider than the operand, and
what is above the operand is cut off in the end.  Here each outcome is brought to
the form that it has for a word as wide as the operand, and for a rotate through
carry to that of a word with one bit more.  A count above the width needs no case
of its own there.
-/

namespace Ia32

/-! ## Rotations of a word -/

section Rotations

variable {k : Nat} (x : BitVec k)

/-- Rotations to one side add up, also where they go more than once around. -/
theorem rotateLeft_rotateLeft (m n : Nat) :
    (x.rotateLeft m).rotateLeft n = x.rotateLeft (m + n) := by
  apply BitVec.eq_of_getMsbD_eq
  intro i hi
  simp only [BitVec.getMsbD_rotateLeft, hi, Nat.mod_lt _ (Nat.zero_lt_of_lt hi), decide_true,
    Bool.true_and]
  rw [Nat.add_mod_mod, Nat.add_assoc]

/-- A rotation to the right takes back one to the left. -/
theorem rotateRight_rotateLeft (n : Nat) : (x.rotateLeft n).rotateRight n = x := by
  apply BitVec.eq_of_getLsbD_eq
  intro i hi
  have hn : n % k < k := Nat.mod_lt _ (Nat.zero_lt_of_lt hi)
  rw [BitVec.getLsbD_rotateRight, BitVec.getLsbD_rotateLeft, BitVec.getLsbD_rotateLeft]
  by_cases h : i < k - n % k
  · have hback : n % k + i - n % k = i := by omega
    have hlt : n % k + i < k := by omega
    simp only [h, hback, hlt, decide_true, cond_true, Bool.true_and, Nat.not_lt.2
      (Nat.le_add_right _ i), decide_false, cond_false]
  · have hback : k - n % k + (i - (k - n % k)) = i := by omega
    have hlt : i - (k - n % k) < n % k := by omega
    simp only [h, hi, hback, hlt, decide_true, decide_false, cond_true, cond_false, Bool.true_and]

theorem rotateLeft_rotateRight (n : Nat) : (x.rotateRight n).rotateLeft n = x := by
  apply BitVec.eq_of_getLsbD_eq
  intro i hi
  have hn : n % k < k := Nat.mod_lt _ (Nat.zero_lt_of_lt hi)
  rw [BitVec.getLsbD_rotateLeft, BitVec.getLsbD_rotateRight, BitVec.getLsbD_rotateRight]
  by_cases h : i < n % k
  · have hback : k - n % k + i - (k - n % k) = i := by omega
    have hlt : k - n % k + i < k := by omega
    simp only [h, hback, hlt, decide_true, cond_true, Bool.true_and, Nat.not_lt.2
      (Nat.le_add_right _ i), decide_false, cond_false]
  · have hback : n % k + (i - n % k) = i := by omega
    have hlt : i - n % k < k - n % k := by omega
    simp only [h, hi, hback, hlt, decide_true, decide_false, cond_true, cond_false, Bool.true_and]

/-- This follows from the other side, as a rotation to the left takes both back. -/
theorem rotateRight_rotateRight (m n : Nat) :
    (x.rotateRight m).rotateRight n = x.rotateRight (m + n) := by
  have hback : ((x.rotateRight m).rotateRight n).rotateLeft (n + m) = x := by
    rw [← rotateLeft_rotateLeft, rotateLeft_rotateRight, rotateLeft_rotateRight]
  have hagain := rotateRight_rotateLeft ((x.rotateRight m).rotateRight n) (n + m)
  rw [hback, Nat.add_comm] at hagain
  exact hagain.symm

/-- Whole turns change nothing. -/
theorem rotateLeft_of_mod_eq_zero {n : Nat} (hn : n % k = 0) : x.rotateLeft n = x := by
  apply BitVec.eq_of_getMsbD_eq
  intro i hi
  have hindex : (n + i) % k = i := by
    rw [Nat.add_mod, hn, Nat.zero_add, Nat.mod_mod, Nat.mod_eq_of_lt hi]
  rw [BitVec.getMsbD_rotateLeft, hindex, decide_eq_true hi, Bool.true_and]

theorem rotateRight_of_mod_eq_zero {n : Nat} (hn : n % k = 0) : x.rotateRight n = x := by
  have hback := rotateRight_rotateLeft x n
  rwa [rotateLeft_of_mod_eq_zero x hn] at hback

/-- The low part of a wide word shifted to the left, and back by what is missing to a whole turn, is
the word rotated to the left. -/
theorem setWidth_or_eq_rotateLeft {m : Nat} (h : k ≤ m) (n : Nat) :
    (x.setWidth m <<< (n % k) ||| x.setWidth m >>> (k - n % k)).setWidth k = x.rotateLeft n := by
  rw [BitVec.rotateLeft_def, BitVec.setWidth_or, BitVec.setWidth_shiftLeft_of_le h,
    ← BitVec.setWidth_ushiftRight h, BitVec.setWidth_setWidth_of_le _ h,
    BitVec.setWidth_setWidth_of_le _ h, BitVec.setWidth_eq, BitVec.setWidth_eq]

theorem setWidth_or_eq_rotateRight {m : Nat} (h : k ≤ m) (n : Nat) :
    (x.setWidth m >>> (n % k) ||| x.setWidth m <<< (k - n % k)).setWidth k = x.rotateRight n := by
  rw [BitVec.rotateRight_def, BitVec.setWidth_or, BitVec.setWidth_shiftLeft_of_le h,
    ← BitVec.setWidth_ushiftRight h, BitVec.setWidth_setWidth_of_le _ h,
    BitVec.setWidth_setWidth_of_le _ h, BitVec.setWidth_eq, BitVec.setWidth_eq]

end Rotations

/-! ## Values of a width -/

/-- Shifted by its width or more, a word is filled with its top bit. -/
theorem sshiftRight_of_le {k n : Nat} (x : BitVec k) (hn : k ≤ n) :
    x.sshiftRight n = if x.msb then BitVec.allOnes k else 0 := by
  apply BitVec.eq_of_getLsbD_eq
  intro i hi
  have hge : ¬n + i < k := by omega
  rw [BitVec.getLsbD_sshiftRight, if_neg hge, decide_eq_false (Nat.not_le.2 hi), Bool.not_false,
    Bool.true_and]
  cases x.msb with
  | true => rw [if_pos rfl, BitVec.getLsbD_allOnes, decide_eq_true hi]
  | false => exact BitVec.getLsbD_zero.symm

namespace Width

variable (w : Width) (x : Dword) (n : Nat)

theorem setWidth_truncate : (w.truncate x).setWidth w.bits = x.setWidth w.bits := by
  apply BitVec.eq_of_getLsbD_eq
  intro i hi
  rw [BitVec.getLsbD_setWidth, BitVec.getLsbD_setWidth, getLsbD_truncate_of_lt hi]

theorem getLsbD_truncate_eq (i : Nat) :
    (w.truncate x).getLsbD i = (x.setWidth w.bits).getLsbD i := by
  rw [getLsbD_truncate, BitVec.getLsbD_setWidth]

/-- To clear the bits above the width is to cut the word there. -/
theorem truncate_eq_setWidth : w.truncate x = (x.setWidth w.bits).setWidth 32 := by
  apply BitVec.eq_of_getLsbD_eq
  intro i hi
  rw [getLsbD_truncate_eq, BitVec.getLsbD_setWidth 32, decide_eq_true hi, Bool.true_and]

theorem mask_eq : w.mask = (BitVec.allOnes w.bits).setWidth 32 := by
  cases w <;> rfl

theorem setWidth_setWidth_bits (x : BitVec w.bits) : (x.setWidth 32).setWidth w.bits = x := by
  rw [BitVec.setWidth_setWidth_of_le _ w.bits_le, BitVec.setWidth_eq]

/-- A result in a wide word is cut twice, and the second cut counts. -/
theorem truncate_setWidth_wide (x : Qword) :
    w.truncate (x.setWidth 32) = (x.setWidth w.bits).setWidth 32 := by
  rw [truncate_eq_setWidth, BitVec.setWidth_setWidth_of_le _ w.bits_le]

theorem truncate_setWidth (x : BitVec w.bits) : w.truncate (x.setWidth 32) = x.setWidth 32 := by
  rw [truncate_eq_setWidth, setWidth_setWidth_bits]

/-- The top bit of the width is copied by two shifts. -/
theorem signExtend_truncate : w.signExtend (w.truncate x) = (x.setWidth w.bits).signExtend 32 := by
  have hle := w.bits_le
  have hpos := w.bits_pos
  apply BitVec.eq_of_getLsbD_eq
  intro i hi
  rw [signExtend, BitVec.getLsbD_sshiftRight, BitVec.getLsbD_signExtend,
    BitVec.msb_eq_getLsbD_last, BitVec.msb_eq_getLsbD_last, BitVec.getLsbD_shiftLeft,
    BitVec.getLsbD_shiftLeft]
  simp only [BitVec.getLsbD_setWidth, getLsbD_truncate]
  by_cases h : i < w.bits
  · have hindex : 32 - w.bits + i - (32 - w.bits) = i := by omega
    have hlt : 32 - w.bits + i < 32 := by omega
    have hge : ¬32 - w.bits + i < 32 - w.bits := by omega
    simp only [h, hi, hlt, hge, hindex, Nat.not_le.2 hi, if_true, decide_true, decide_false,
      Bool.not_false, Bool.true_and]
  · have hindex : 32 - 1 - (32 - w.bits) = w.bits - 1 := by omega
    have hlt : ¬32 - w.bits + i < 32 := by omega
    have hge : ¬32 - 1 < 32 - w.bits := by omega
    simp only [h, hi, hlt, hge, hindex, Nat.not_le.2 hi, w.top_lt, if_false, decide_true,
      decide_false, Bool.not_false, Bool.true_and, Nat.reduceLT, Nat.reduceSub]

theorem msb_signExtend (x : BitVec w.bits) : (x.signExtend 32).msb = x.msb := by
  rw [BitVec.msb_signExtend, decide_eq_true (by decide), Bool.true_and]
  split
  next h => rw [Nat.sub_eq_zero_of_le w.bits_le, BitVec.msb]
  next => rfl

/-- The copies of the top bit are what an arithmetic shift brings in. -/
theorem setWidth_sshiftRight_signExtend (x : BitVec w.bits) :
    ((x.signExtend 32).sshiftRight n).setWidth w.bits = x.sshiftRight n := by
  have hle := w.bits_le
  apply BitVec.eq_of_getLsbD_eq
  intro i hi
  have hi32 : i < 32 := Nat.lt_of_lt_of_le hi hle
  rw [BitVec.getLsbD_setWidth, BitVec.getLsbD_sshiftRight, BitVec.getLsbD_sshiftRight,
    BitVec.getLsbD_signExtend, msb_signExtend]
  simp only [hi, Nat.not_le.2 hi, Nat.not_le.2 hi32, decide_true, decide_false, Bool.not_false,
    Bool.true_and]
  by_cases h : n + i < 32
  · rw [if_pos h, decide_eq_true h, Bool.true_and]
  · rw [if_neg h, if_neg (by omega)]

/-- Two operands that stand next to each other in a wide word. -/
theorem truncate_or_truncate (high low : Dword) :
    (w.truncate high).setWidth 64 <<< w.bits ||| (w.truncate low).setWidth 64 =
      (high.setWidth w.bits ++ low.setWidth w.bits).setWidth 64 := by
  have hle := w.bits_le
  apply BitVec.eq_of_getLsbD_eq
  intro i hi
  rw [BitVec.getLsbD_or, BitVec.getLsbD_shiftLeft, BitVec.getLsbD_setWidth, BitVec.getLsbD_setWidth,
    BitVec.getLsbD_setWidth, BitVec.getLsbD_append, getLsbD_truncate_eq,
    getLsbD_truncate_eq]
  have hback : i - w.bits < 64 := by omega
  by_cases h : i < w.bits
  · simp only [hi, h, if_true, decide_true, Bool.not_true, Bool.and_false, Bool.false_and,
      Bool.true_and, Bool.false_or]
  · simp only [hi, h, hback, if_false, decide_true, decide_false, Bool.not_false, Bool.true_and,
      BitVec.getLsbD_of_ge _ _ (Nat.not_lt.1 h), Bool.or_false]

end Width

/-! ## Outcomes -/

namespace ShiftOp

variable {w : Width} {n : Nat} (flags value : Dword)

/-- A left shift of a word.  Past the width both the operand and the carry are zero. -/
theorem apply_shl (hn : 0 < n) : ShiftOp.shl.apply w flags value n =
    some (shifted w n flags ((value.setWidth w.bits <<< n).setWidth 32)
      (decide (n ≤ w.bits) && (value.setWidth w.bits).getLsbD (w.bits - n))
      ((w.truncate value).getLsbD (w.bits - 1) ^^
        (w.truncate value).getLsbD (w.bits - 1 - 1))) := by
  rw [apply, if_neg hn.ne']
  dsimp only
  split
  next hle =>
    have hresult : w.truncate (((w.truncate value).setWidth 64 <<< n).setWidth 32) =
        (value.setWidth w.bits <<< n).setWidth 32 := by
      rw [BitVec.setWidth_shiftLeft_of_le (show 32 ≤ 64 by decide),
        BitVec.setWidth_setWidth_of_le _ (show 32 ≤ 64 by decide), BitVec.setWidth_eq,
        Width.truncate_eq_setWidth, BitVec.setWidth_shiftLeft_of_le w.bits_le,
        Width.setWidth_truncate]
    dsimp only
    rw [hresult, Width.getLsbD_truncate_eq, decide_eq_true hle, Bool.true_and]
  next hlt =>
    rw [decide_eq_false hlt, Bool.false_and,
      BitVec.shiftLeft_eq_zero (Nat.le_of_lt (Nat.not_le.1 hlt)), BitVec.setWidth_zero]
    rfl

/-- A right shift of a word. -/
theorem apply_shr (hn : 0 < n) : ShiftOp.shr.apply w flags value n =
    some (shifted w n flags ((value.setWidth w.bits >>> n).setWidth 32)
      ((value.setWidth w.bits).getLsbD (n - 1)) ((w.truncate value).getLsbD (w.bits - 1))) := by
  rw [apply, if_neg hn.ne']
  dsimp only
  split
  next hle =>
    have hresult : ((w.truncate value).setWidth 64 >>> n).setWidth 32 =
        (value.setWidth w.bits >>> n).setWidth 32 := by
      rw [← BitVec.setWidth_ushiftRight (show 32 ≤ 64 by decide),
        BitVec.setWidth_setWidth_of_le _ (show 32 ≤ 64 by decide), BitVec.setWidth_eq,
        Width.truncate_eq_setWidth, BitVec.setWidth_ushiftRight w.bits_le]
    dsimp only
    rw [hresult, Width.getLsbD_truncate_eq]
  next hlt =>
    have hge : w.bits ≤ n - 1 := by omega
    rw [BitVec.ushiftRight_eq_zero (Nat.le_of_lt (Nat.not_le.1 hlt)), BitVec.setWidth_zero,
      BitVec.getLsbD_of_ge _ _ hge]
    rfl

/-- An arithmetic right shift of a word.  From the width on, the operand and the carry are copies of
its top bit. -/
theorem apply_sar (hn : 0 < n) (hlt : n < 32) : ShiftOp.sar.apply w flags value n =
    some (shifted w n flags (((value.setWidth w.bits).sshiftRight n).setWidth 32)
      (if n - 1 < w.bits then (value.setWidth w.bits).getLsbD (n - 1)
        else (value.setWidth w.bits).msb) false) := by
  have h32 : n - 1 < 32 := by omega
  have hmsb : (w.signExtend (w.truncate value)).msb = (value.setWidth w.bits).msb := by
    rw [Width.signExtend_truncate, Width.msb_signExtend]
  rw [apply, if_neg hn.ne']
  dsimp only
  rw [hmsb]
  split
  next hle =>
    have hresult : (if (value.setWidth w.bits).msb then w.mask else 0) =
        ((value.setWidth w.bits).sshiftRight n).setWidth 32 := by
      rw [sshiftRight_of_le _ hle, w.mask_eq]
      split
      · rfl
      · exact (BitVec.setWidth_zero _ _).symm
    have hcarry : (if n - 1 < w.bits then (value.setWidth w.bits).getLsbD (n - 1)
        else (value.setWidth w.bits).msb) = (value.setWidth w.bits).msb := by
      split
      next hlow =>
        have hindex : n - 1 = w.bits - 1 := by omega
        rw [hindex, BitVec.msb_eq_getLsbD_last]
      next => rfl
    dsimp only
    rw [hresult, hcarry]
  next hlow =>
    have hresult : w.truncate ((w.signExtend (w.truncate value)).sshiftRight n) =
        ((value.setWidth w.bits).sshiftRight n).setWidth 32 := by
      rw [Width.truncate_eq_setWidth, Width.signExtend_truncate,
        Width.setWidth_sshiftRight_signExtend]
    rw [hresult, Width.signExtend_truncate, BitVec.getLsbD_signExtend, decide_eq_true h32,
      Bool.true_and]

/-- A rotate to the left.  Its count is taken modulo the width, and whole turns are left out. -/
theorem apply_rol (hn : 0 < n) : ShiftOp.rol.apply w flags value n =
    some (rotated n flags (((value.setWidth w.bits).rotateLeft n).setWidth 32)
      (((value.setWidth w.bits).rotateLeft n).getLsbD 0)
      ((w.truncate value).getLsbD (w.bits - 1) ^^
        (w.truncate value).getLsbD (w.bits - 1 - 1))) := by
  have hresult : (if n % w.bits = 0 then w.truncate value
      else w.truncate (w.truncate value <<< (n % w.bits) |||
        w.truncate value >>> (w.bits - n % w.bits))) =
      ((value.setWidth w.bits).rotateLeft n).setWidth 32 := by
    split
    next hzero => rw [rotateLeft_of_mod_eq_zero _ hzero, Width.truncate_eq_setWidth]
    next => rw [Width.truncate_eq_setWidth, Width.truncate_eq_setWidth,
      setWidth_or_eq_rotateLeft _ w.bits_le]
  rw [apply, if_neg hn.ne']
  dsimp only
  rw [hresult, BitVec.getLsbD_setWidth, decide_eq_true (by decide), Bool.true_and]

/-- A rotate to the right, in the same way. -/
theorem apply_ror (hn : 0 < n) : ShiftOp.ror.apply w flags value n =
    some (rotated n flags (((value.setWidth w.bits).rotateRight n).setWidth 32)
      ((value.setWidth w.bits).rotateRight n).msb
      ((w.truncate value).getLsbD (w.bits - 1) ^^ (w.truncate value).getLsbD 0)) := by
  have hresult : (if n % w.bits = 0 then w.truncate value
      else w.truncate (w.truncate value >>> (n % w.bits) |||
        w.truncate value <<< (w.bits - n % w.bits))) =
      ((value.setWidth w.bits).rotateRight n).setWidth 32 := by
    split
    next hzero => rw [rotateRight_of_mod_eq_zero _ hzero, Width.truncate_eq_setWidth]
    next => rw [Width.truncate_eq_setWidth, Width.truncate_eq_setWidth,
      setWidth_or_eq_rotateRight _ w.bits_le]
  have htop : w.bits - 1 < 32 := Nat.lt_of_lt_of_le w.top_lt w.bits_le
  rw [apply, if_neg hn.ne']
  dsimp only
  rw [hresult, BitVec.getLsbD_setWidth, decide_eq_true htop, Bool.true_and,
    BitVec.msb_eq_getLsbD_last]

/-- The operand with the carry bit above it. -/
def carried (w : Width) (flags value : Dword) : BitVec (w.bits + 1) :=
  BitVec.cons (Flags.test flags Flags.carry) (value.setWidth w.bits)

/-- The word of 64 bits holds the operand and the carry, and zeros above them. -/
theorem withCarry_eq : withCarry w flags (w.truncate value) =
    (carried w flags value).setWidth 64 := by
  have hle := w.bits_le
  apply BitVec.eq_of_getLsbD_eq
  intro i hi
  rw [withCarry, carried, BitVec.getLsbD_or, BitVec.getLsbD_shiftLeft, BitVec.getLsbD_setWidth,
    BitVec.getLsbD_setWidth, BitVec.getLsbD_setWidth, BitVec.getLsbD_cons, BitVec.getLsbD_ofBool,
    Width.getLsbD_truncate_eq]
  rcases Nat.lt_trichotomy i w.bits with hlt | rfl | hgt
  · simp only [hi, hlt, hlt.ne, if_false, decide_true, Bool.not_true, Bool.and_false,
      Bool.false_and, Bool.true_and, Bool.or_false]
  · simp only [hi, lt_irrefl, Nat.zero_lt_succ, BitVec.getLsbD_of_ge, le_refl, if_true,
      decide_true, decide_false, Bool.not_false, Bool.true_and, Bool.false_or, Nat.sub_self]
  · have hne : i - w.bits ≠ 0 := by omega
    simp only [hne, hgt.ne', if_false, decide_false, Bool.false_and, Bool.and_false, Bool.or_false]

/-- Of the word in which the operand and the carry have been rotated, only their places count. -/
theorem rotatedThrough_eq (wide : Qword) (overflow : Bool) {word : BitVec (w.bits + 1)}
    (hw : wide.setWidth (w.bits + 1) = word) : rotatedThrough w n flags wide overflow =
      rotated n flags ((word.setWidth w.bits).setWidth 32) word.msb overflow := by
  have hle := w.bits_le
  have hmask : (1 <<< (w.bits + 1) - 1 : Qword) = (BitVec.allOnes (w.bits + 1)).setWidth 64 := by
    cases w <;> rfl
  have hbit (i : Nat) (hi : i < w.bits + 1) :
      (wide &&& (1 <<< (w.bits + 1) - 1)).getLsbD i = word.getLsbD i := by
    have hlt : i < 64 := by omega
    rw [hmask, ← hw, BitVec.getLsbD_and, BitVec.getLsbD_setWidth, BitVec.getLsbD_setWidth,
      BitVec.getLsbD_allOnes, decide_eq_true hi, decide_eq_true hlt, Bool.true_and, Bool.true_and,
      Bool.and_true]
  have hresult : (wide &&& (1 <<< (w.bits + 1) - 1)).setWidth 32 &&& w.mask =
      (word.setWidth w.bits).setWidth 32 := by
    rw [← Width.truncate, Width.truncate_eq_setWidth, BitVec.setWidth_setWidth_of_le _ hle]
    refine congrArg (BitVec.setWidth 32) (BitVec.eq_of_getLsbD_eq fun i hi => ?_)
    rw [BitVec.getLsbD_setWidth, BitVec.getLsbD_setWidth, hbit i (Nat.lt_succ_of_lt hi)]
  rw [rotatedThrough, hresult, hbit _ (Nat.lt_succ_self _), BitVec.msb_eq_getLsbD_last,
    Nat.add_sub_cancel]

/-- A rotate to the left through carry. -/
theorem apply_rcl (hn : 0 < n) : ShiftOp.rcl.apply w flags value n =
    if n % (w.bits + 1) = 0 then none else
    some (rotated n flags ((((carried w flags value).rotateLeft n).setWidth w.bits).setWidth 32)
      ((carried w flags value).rotateLeft n).msb
      ((w.truncate value).getLsbD (w.bits - 1) ^^
        (w.truncate value).getLsbD (w.bits - 1 - 1))) := by
  have hle : w.bits + 1 ≤ 64 := Nat.le_trans (Nat.succ_le_succ w.bits_le) (by decide)
  rw [apply, if_neg hn.ne']
  dsimp only
  rw [withCarry_eq, rotatedThrough_eq _ _ _ (setWidth_or_eq_rotateLeft _ hle n)]

/-- A rotate to the right through carry. -/
theorem apply_rcr (hn : 0 < n) : ShiftOp.rcr.apply w flags value n =
    if n % (w.bits + 1) = 0 then none else
    some (rotated n flags ((((carried w flags value).rotateRight n).setWidth w.bits).setWidth 32)
      ((carried w flags value).rotateRight n).msb
      ((w.truncate value).getLsbD (w.bits - 1) ^^ Flags.test flags Flags.carry)) := by
  have hle : w.bits + 1 ≤ 64 := Nat.le_trans (Nat.succ_le_succ w.bits_le) (by decide)
  rw [apply, if_neg hn.ne']
  dsimp only
  rw [withCarry_eq, rotatedThrough_eq _ _ _ (setWidth_or_eq_rotateRight _ hle n)]

end ShiftOp

end Ia32
