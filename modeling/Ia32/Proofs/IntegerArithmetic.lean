import Mathlib.Algebra.Order.Ring.Int
import Mathlib.Tactic.NormNum
import Mathlib.Tactic.SplitIfs
import Ia32.Proofs.IndexRegisters

/-!
# Integer arithmetic of words

What the two-operand operations compute, said with integers.  An operand of some
width stands for a natural number (`Width.toNat`) and for a signed one
(`Width.toInt`).  A sum or a difference is exact modulo two to the width.  Carry
tells that the natural numbers left the width, overflow that the signed ones did,
auxiliary carry that their low four bits did (`Flags.IsSum`,
`Flags.IsDifference`).

The formulas for the flags look at single bits of the operands and of the result.
Bit `i` of a sum is the exclusive or of the operands' bits and of the carry into
it, so that the carry can be read off the other three.  A difference is the sum
with the complement, in which a borrow is a carry that fails to come
(`carry_complement`).
-/

namespace Ia32

/-! ## Values of a width -/

namespace Width

/-- A value of the width as a natural number. -/
def toNat (w : Width) (value : Dword) : Nat := (w.truncate value).toNat

/-- Half the number of values. -/
def half (w : Width) : Nat := 2 ^ (w.bits - 1)

/-- Whether a signed number can be told in the bits of the width. -/
def Holds (w : Width) (n : Int) : Prop := -(w.half : Int) ≤ n ∧ n < w.half

variable {w : Width} {x y : Dword} {i : Nat}

theorem bits_pos (w : Width) : 0 < w.bits := by
  cases w <;> decide

theorem bits_le (w : Width) : w.bits ≤ 32 := by
  cases w <;> decide

theorem top_lt (w : Width) : w.bits - 1 < w.bits :=
  Nat.sub_lt w.bits_pos Nat.one_pos

theorem toNat_eq (w : Width) (x : Dword) : w.toNat x = x.toNat % 2 ^ w.bits := toNat_truncate w x

/-- The low bits of a value are those of the word it comes from. -/
theorem toNat_mod (hi : i ≤ w.bits) (x : Dword) : w.toNat x % 2 ^ i = x.toNat % 2 ^ i := by
  rw [toNat_eq]
  exact Nat.mod_mod_of_dvd _ (Nat.pow_dvd_pow 2 hi)

theorem toNat_truncate_eq (w : Width) (x : Dword) : w.toNat (w.truncate x) = w.toNat x := by
  rw [toNat, truncate_truncate, toNat]

theorem getLsbD_truncate (w : Width) (x : Dword) (i : Nat) :
    (w.truncate x).getLsbD i = (decide (i < w.bits) && x.getLsbD i) := by
  have htest := congrArg (Nat.testBit · i) (toNat_truncate w x)
  simpa only [Nat.testBit_mod_two_pow, BitVec.testBit_toNat] using htest

theorem getLsbD_truncate_of_lt (hi : i < w.bits) (x : Dword) :
    (w.truncate x).getLsbD i = x.getLsbD i := by
  rw [getLsbD_truncate, decide_eq_true hi, Bool.true_and]

/-- A value is negative when the top bit of its width is set. -/
theorem isNegative_eq (w : Width) (x : Dword) : w.isNegative x = x.getLsbD (w.bits - 1) := by
  have htop : w.topBit = BitVec.twoPow 32 (w.bits - 1) := by cases w <;> rfl
  have hle := w.bits_le
  have hpos := w.bits_pos
  rw [isNegative, htop, and_twoPow_bne_zero (by omega)]

/-- The bits below the top bit. -/
theorem low_lt (w : Width) (x : Dword) : x.toNat % w.half < w.half :=
  Nat.mod_lt _ (Nat.two_pow_pos _)

/-- The top bit counts negative in a signed number. -/
theorem toInt_eq (w : Width) (x : Dword) :
    w.toInt x = (x.toNat % w.half : Nat) - (if w.isNegative x then (w.half : Int) else 0) := by
  have hlt := x.isLt
  -- The word is shifted to the top and back, which leaves the bits of the width alone.
  have hshift : w.toInt x = ((x.toNat <<< (32 - w.bits) : Nat) : Int).bmod (2 ^ 32) >>>
      (32 - w.bits) := by
    rw [toInt, signExtend, BitVec.toInt_sshiftRight, BitVec.toInt_shiftLeft]
  rw [hshift, Int.bmod_def, isNegative_eq, ← BitVec.testBit_toNat,
    Nat.testBit_eq_decide_div_mod_eq, Int.shiftRight_eq_div_pow, Nat.shiftLeft_eq]
  cases w <;> simp only [bits, half] <;> norm_num <;> split_ifs <;> omega

theorem toInt_neg_iff (w : Width) (x : Dword) : w.toInt x < 0 ↔ w.isNegative x = true := by
  have hlt := w.low_lt x
  rw [toInt_eq]
  cases w.isNegative x with
  | false => exact iff_of_false (by simp only [Bool.false_eq_true, if_false]; omega) (by decide)
  | true => exact iff_of_true (by simp only [if_true]; omega) rfl

theorem isNegative_truncate (w : Width) (x : Dword) :
    w.isNegative (w.truncate x) = w.isNegative x := by
  rw [isNegative_eq, isNegative_eq, getLsbD_truncate_of_lt w.top_lt]

theorem toInt_truncate (w : Width) (x : Dword) : w.toInt (w.truncate x) = w.toInt x := by
  have hlow : (w.truncate x).toNat % w.half = x.toNat % w.half := toNat_mod w.top_lt.le x
  rw [toInt_eq, toInt_eq, hlow, isNegative_truncate]

/-- Two to the width is twice the half. -/
theorem two_pow_bits (w : Width) : 2 ^ w.bits = 2 * w.half := by
  cases w <;> rfl

/-- The signed number that a value stands for can be told in its width. -/
theorem holds_toInt (w : Width) (x : Dword) : w.Holds (w.toInt x) := by
  have hlt := w.low_lt x
  rw [toInt_eq, Holds]
  cases w.isNegative x <;> simp <;> omega

/-- The signed and the natural number that a value stands for agree modulo two to the width. -/
theorem toInt_emod (w : Width) (x : Dword) : w.toInt x % 2 ^ w.bits = w.toNat x := by
  rw [toInt_eq, toNat_eq, isNegative_eq, ← BitVec.testBit_toNat,
    Nat.testBit_eq_decide_div_mod_eq]
  cases w <;> simp only [bits, half] <;> norm_num <;> split_ifs <;> omega

/-- A number that can be told in the width is known by its value modulo two to the width. -/
theorem toInt_eq_of_holds {n : Int} (hn : w.Holds n) (h : n % 2 ^ w.bits = w.toNat x) :
    w.toInt x = n := by
  have hx := w.holds_toInt x
  have hmod : w.toInt x % 2 ^ w.bits = n % 2 ^ w.bits := by rw [toInt_emod, h]
  obtain ⟨hx₁, hx₂⟩ := hx
  obtain ⟨hn₁, hn₂⟩ := hn
  cases w <;> simp only [bits, half] at * <;> omega

/-- The low bits of a complement. -/
theorem toNat_not_mod (hi : i ≤ 32) (x : Dword) :
    (~~~x).toNat % 2 ^ i = 2 ^ i - 1 - x.toNat % 2 ^ i := by
  rw [← BitVec.toNat_setWidth, BitVec.setWidth_not hi, BitVec.toNat_not, BitVec.toNat_setWidth]

theorem isNegative_and (w : Width) (x y : Dword) :
    w.isNegative (x &&& y) = (w.isNegative x && w.isNegative y) := by
  simp only [isNegative_eq, BitVec.getLsbD_and]

theorem isNegative_or (w : Width) (x y : Dword) :
    w.isNegative (x ||| y) = (w.isNegative x || w.isNegative y) := by
  simp only [isNegative_eq, BitVec.getLsbD_or]

theorem isNegative_xor (w : Width) (x y : Dword) :
    w.isNegative (x ^^^ y) = (w.isNegative x ^^ w.isNegative y) := by
  simp only [isNegative_eq, BitVec.getLsbD_xor]

theorem isNegative_not (w : Width) (x : Dword) : w.isNegative (~~~x) = !w.isNegative x := by
  have hlt : w.bits - 1 < 32 := Nat.lt_of_lt_of_le w.top_lt w.bits_le
  rw [isNegative_eq, isNegative_eq, BitVec.getLsbD_not, decide_eq_true hlt, Bool.true_and]

/-- The complement of a signed number. -/
theorem toInt_not (w : Width) (x : Dword) : w.toInt (~~~x) = -w.toInt x - 1 := by
  have hle : w.bits - 1 ≤ 32 := (Nat.lt_of_lt_of_le w.top_lt w.bits_le).le
  have hlt := w.low_lt x
  have hnot : (~~~x).toNat % w.half = w.half - 1 - x.toNat % w.half := toNat_not_mod hle x
  rw [toInt_eq, toInt_eq, hnot, isNegative_not]
  cases w.isNegative x <;> simp <;> omega

end Width

/-! ## Carries -/

section Carries

variable {w : Width} {a b : Dword} {i : Nat} {c : Bool}

/-- The word of a single bit. -/
def bitWord (c : Bool) : Dword := (BitVec.ofBool c).setWidth 32

theorem toNat_bitWord (c : Bool) : (bitWord c).toNat = c.toNat := by
  cases c <;> rfl

/-- A sum at a width, with a carry in. -/
def sumWith (w : Width) (a b : Dword) (c : Bool) : Dword := w.truncate (a + b + bitWord c)

theorem toNat_sumWith (w : Width) (a b : Dword) (c : Bool) :
    (sumWith w a b c).toNat = (a.toNat + b.toNat + c.toNat) % 2 ^ w.bits := by
  have hdvd : 2 ^ w.bits ∣ 2 ^ 32 := Nat.pow_dvd_pow 2 w.bits_le
  rw [sumWith, Width.toNat_truncate, BitVec.toNat_add, BitVec.toNat_add, toNat_bitWord,
    Nat.mod_add_mod, Nat.mod_mod_of_dvd _ hdvd]

theorem getLsbD_sumWith (hi : i < w.bits) (a b : Dword) (c : Bool) :
    (sumWith w a b c).getLsbD i = (a.getLsbD i ^^ (b.getLsbD i ^^ BitVec.carry i a b c)) := by
  have hle := w.bits_le
  rw [sumWith, Width.getLsbD_truncate_of_lt hi]
  exact BitVec.getLsbD_add_add_bool (by omega) a b c

/-- The carry into a bit. -/
theorem carry_eq (hi : i < w.bits) (a b : Dword) (c : Bool) :
    BitVec.carry i a b c = (a.getLsbD i ^^ b.getLsbD i ^^ (sumWith w a b c).getLsbD i) := by
  rw [getLsbD_sumWith hi]
  cases a.getLsbD i <;> cases b.getLsbD i <;> simp

/-- The carry out of the width. -/
theorem carry_bits_eq (w : Width) (a b : Dword) (c : Bool) :
    BitVec.carry w.bits a b c = (w.isNegative a && w.isNegative b ||
      (w.isNegative a || w.isNegative b) && !w.isNegative (sumWith w a b c)) := by
  have hsucc : w.bits - 1 + 1 = w.bits := Nat.sub_add_cancel w.bits_pos
  -- The carry out is the majority of the two top bits and of the carry into them.
  rw [← hsucc, BitVec.carry_succ, carry_eq (w := w) w.top_lt]
  simp only [Width.isNegative_eq]
  generalize (sumWith w a b c).getLsbD (w.bits - 1) = r
  cases a.getLsbD (w.bits - 1) <;> cases b.getLsbD (w.bits - 1) <;> cases r <;> rfl

theorem isNegative_sumWith (w : Width) (a b : Dword) (c : Bool) :
    w.isNegative (sumWith w a b c) = (w.isNegative a ^^ (w.isNegative b ^^
      decide (w.half ≤ a.toNat % w.half + b.toNat % w.half + c.toNat))) := by
  simp only [Width.isNegative_eq, getLsbD_sumWith w.top_lt]
  rfl

/-- A sum is out of range when its sign is that of neither operand. -/
theorem not_holds_sum_iff (w : Width) (a b : Dword) (c : Bool) :
    ¬w.Holds (w.toInt a + w.toInt b + c.toNat) ↔
      ((w.isNegative a ^^ w.isNegative (sumWith w a b c)) &&
        (w.isNegative b ^^ w.isNegative (sumWith w a b c))) = true := by
  have ha := w.low_lt a
  have hb := w.low_lt b
  have hc := Bool.toNat_le c
  rw [isNegative_sumWith, Width.toInt_eq, Width.toInt_eq, Width.Holds]
  cases w.isNegative a <;> cases w.isNegative b <;> simp <;> omega

/-! ### Borrows -/

/-- A borrow into a bit is a carry that fails to come. -/
theorem carry_complement (hi : i ≤ 32) (a b : Dword) (c : Bool) :
    BitVec.carry i a (~~~b) (!c) = !decide (a.toNat % 2 ^ i < b.toNat % 2 ^ i + c.toNat) := by
  have hlt := Nat.mod_lt b.toNat (Nat.two_pow_pos i)
  rw [BitVec.carry, Width.toNat_not_mod hi, ← decide_not, decide_eq_decide]
  cases c <;> simp <;> omega

theorem truncate_sub_eq (w : Width) (a b : Dword) :
    w.truncate (a - b) = sumWith w a (~~~b) (!false) := by
  have hsub : a - b = a + ~~~b + bitWord true := by
    rw [BitVec.sub_eq_add_neg, BitVec.neg_eq_not_add, BitVec.add_assoc]
    rfl
  rw [hsub]
  rfl

/-- A difference does not depend on bits above the width. -/
theorem truncate_sub_truncate (w : Width) (a b : Dword) :
    w.truncate (w.truncate a - w.truncate b) = w.truncate (a - b) := by
  apply BitVec.eq_of_toNat_eq
  simp only [Width.toNat_truncate, BitVec.toNat_sub]
  cases w <;> simp only [Width.bits] <;> omega

/-- A difference with a borrow is computed as a sum. -/
theorem borrow_sum_eq (w : Width) (a b : Dword) (c : Bool) :
    w.truncate (a + w.truncate (~~~b) + (1 - bitWord c)) = sumWith w a (~~~b) (!c) := by
  have hbit : 1 - bitWord c = bitWord (!c) := by cases c <;> rfl
  have hswap (x y z : Dword) : x + y + z = y + (x + z) := by
    rw [BitVec.add_comm x y, BitVec.add_assoc]
  rw [hbit, hswap, Width.truncate_truncate_add, ← hswap, sumWith]

end Carries

/-! ## The flags of a result -/

namespace Flags

variable {w : Width} {flags mask mask' result : Dword} {a b r : Dword} {c on : Bool}

/-- What zero, sign and parity tell of a result. -/
structure Describes (w : Width) (result flags : Dword) : Prop where
  /-- Zero. -/
  zero : test flags zero ↔ w.toNat result = 0
  /-- The sign. -/
  sign : test flags sign ↔ w.toInt result < 0
  /-- The number of ones in the low byte. -/
  parity : test flags parity ↔ Even ((List.range 8).countP result.getLsbD)

/-- The sum of two operands and a carry, and the flags that tell of it. -/
structure IsSum (w : Width) (a b : Dword) (c : Bool) (result flags : Dword) : Prop where
  /-- The sum, modulo two to the width. -/
  result : result.toNat = (w.toNat a + w.toNat b + c.toNat) % 2 ^ w.bits
  /-- The natural numbers leave the width. -/
  carry : test flags carry ↔ 2 ^ w.bits ≤ w.toNat a + w.toNat b + c.toNat
  /-- The signed numbers leave the width. -/
  overflow : test flags overflow ↔ ¬w.Holds (w.toInt a + w.toInt b + c.toNat)
  /-- The low halves of the low bytes leave four bits. -/
  auxiliary : test flags auxiliary ↔ 16 ≤ w.toNat a % 16 + w.toNat b % 16 + c.toNat

/-- The difference of two operands and a borrow, and the flags that tell of it. -/
structure IsDifference (w : Width) (a b : Dword) (c : Bool) (result flags : Dword) : Prop where
  /-- The difference, modulo two to the width. -/
  result : (result.toNat : Int) = (w.toNat a - w.toNat b - c.toNat : Int) % 2 ^ w.bits
  /-- The natural numbers go below zero. -/
  carry : test flags carry ↔ w.toNat a < w.toNat b + c.toNat
  /-- The signed numbers leave the width. -/
  overflow : test flags overflow ↔ ¬w.Holds (w.toInt a - w.toInt b - c.toNat)
  /-- The low halves of the low bytes go below zero. -/
  auxiliary : test flags auxiliary ↔ w.toNat a % 16 < w.toNat b % 16 + c.toNat

/-- A bitwise operation on two operands, and the flags that tell of it. -/
structure IsBitwise (w : Width) (f : Bool → Bool → Bool) (before a b result flags : Dword) :
    Prop where
  /-- The operation on each bit of the width. -/
  result : ∀ i, result.getLsbD i = (decide (i < w.bits) && f (a.getLsbD i) (b.getLsbD i))
  /-- No carry. -/
  carry : test flags carry = false
  /-- No overflow. -/
  overflow : test flags overflow = false
  /-- Auxiliary carry stays. -/
  auxiliary : test flags auxiliary = test before auxiliary

theorem test_assign_self (hm : mask ≠ 0) (flags : Dword) (on : Bool) :
    test (assign flags mask on) mask = on := by
  cases on with
  | false => simp [test, assign, BitVec.and_assoc]
  | true =>
    have hkeep : (flags ||| mask) &&& mask = mask := by
      apply BitVec.eq_of_getLsbD_eq
      intro i _
      rw [BitVec.getLsbD_and, BitVec.getLsbD_or]
      cases mask.getLsbD i <;> simp
    rw [test, assign, if_pos rfl, hkeep]
    exact bne_iff_ne.mpr hm

/-- An assignment to other flags. -/
theorem test_assign_of_disjoint (hm : mask' &&& mask = 0) (flags : Dword) (on : Bool) :
    test (assign flags mask on) mask' = test flags mask' :=
  ((SameOutside.refl mask flags).assign (by simp) on).test_eq hm

/-- Some of the cleared flags. -/
theorem test_assign_false (hm : mask' &&& ~~~mask = 0) (flags : Dword) :
    test (assign flags mask false) mask' = false := by
  have hnone : flags &&& ~~~mask &&& mask' = 0 := by
    rw [BitVec.and_assoc, BitVec.and_comm (~~~mask), hm]
    exact BitVec.and_zero
  simp [test, assign, hnone]

theorem test_afterResult (hm : mask &&& (sign ||| zero ||| parity) = 0) (w : Width)
    (flags result : Dword) : test (afterResult w flags result) mask = test flags mask :=
  ((SameOutside.refl _ flags).afterResult (by decide) result).test_eq hm

theorem and_carry_eq (flags : Dword) : flags &&& carry = bitWord (test flags carry) := by
  have hcarry : carry = BitVec.twoPow 32 0 := rfl
  rw [test, hcarry, BitVec.and_twoPow]
  split <;> rfl

theorem evenParity_iff (x : Byte) : Byte.evenParity x ↔ Even ((List.range 8).countP x.getLsbD) := by
  -- By induction on the bits, from either parity.
  have hfold (l : List Nat) (odd : Bool) : l.foldl (fun odd i => odd ^^ x.getLsbD i) odd =
      (odd ^^ !decide (Even (l.countP x.getLsbD))) := by
    induction l generalizing odd with
    | nil => simp
    | cons i l ih =>
      rw [List.foldl_cons, ih, List.countP_cons]
      cases x.getLsbD i <;> cases odd <;> simp [Nat.even_add_one, -Nat.not_even_iff_odd]
  rw [Byte.evenParity, hfold]
  simp

theorem describes_afterResult (w : Width) (flags result : Dword) :
    Describes w result (afterResult w flags result) where
  zero := by
    rw [afterResult, test_assign_of_disjoint (by decide), test_assign_self (by decide), beq_iff_eq]
    exact BitVec.toNat_inj.symm
  sign := by
    rw [afterResult, test_assign_of_disjoint (by decide), test_assign_of_disjoint (by decide),
      test_assign_self (by decide), Width.isNegative_truncate, Width.toInt_neg_iff]
  parity := by
    rw [afterResult, test_assign_self (by decide), evenParity_iff]
    have hbits (i : Nat) (hi : i ∈ List.range 8) :
        ((w.truncate result).setWidth 8).getLsbD i = true ↔ result.getLsbD i = true := by
      have hlt := List.mem_range.mp hi
      have hle : 8 ≤ w.bits := by cases w <;> decide
      rw [BitVec.getLsbD_setWidth, decide_eq_true hlt, Bool.true_and,
        Width.getLsbD_truncate_of_lt (by omega)]
    rw [List.countP_congr hbits]

/-! ## The formulas for the flags -/

variable (w : Width) (flags a b : Dword) (c : Bool)

theorem and_sixteen_eq_zero (x : Dword) : (x &&& 0x10 == 0) = !x.getLsbD 4 := by
  have hbit : (0x10 : Dword) = BitVec.twoPow 32 4 := rfl
  rw [hbit, BitVec.and_twoPow]
  cases x.getLsbD 4 <;> decide

theorem test_carry_afterAdd (carryIn r : Dword) : test (afterAdd w flags a b carryIn r) carry =
    decide (w.mask.toNat < a.toNat + b.toNat + carryIn.toNat) := by
  rw [afterAdd, test_afterResult (by decide), test_assign_self (by decide)]

theorem test_overflow_afterAdd (carryIn r : Dword) :
    test (afterAdd w flags a b carryIn r) overflow =
      ((w.isNegative a ^^ w.isNegative r) && (w.isNegative b ^^ w.isNegative r)) := by
  rw [afterAdd, test_afterResult (by decide), test_assign_of_disjoint (by decide),
    test_assign_of_disjoint (by decide), test_assign_self (by decide)]
  simp only [Width.isNegative_and, Width.isNegative_xor]

theorem test_auxiliary_afterAdd (carryIn r : Dword) :
    test (afterAdd w flags a b carryIn r) auxiliary =
      (a.getLsbD 4 ^^ b.getLsbD 4 ^^ r.getLsbD 4) := by
  rw [afterAdd, test_afterResult (by decide), test_assign_of_disjoint (by decide),
    test_assign_self (by decide), bne, and_sixteen_eq_zero, Bool.not_not, BitVec.getLsbD_xor,
    BitVec.getLsbD_xor]

/-- Borrow out of the width, from the top bits of the operands and of the result. -/
theorem test_carry_afterSub (r : Dword) : test (afterSub w flags a b r) carry =
    !(w.isNegative a && !w.isNegative b ||
      (w.isNegative a || !w.isNegative b) && !w.isNegative r) := by
  rw [afterSub, test_afterResult (by decide), test_assign_self (by decide)]
  simp only [Width.isNegative_or, Width.isNegative_and, Width.isNegative_not]

theorem test_overflow_afterSub (r : Dword) : test (afterSub w flags a b r) overflow =
    ((w.isNegative a ^^ w.isNegative b) && (w.isNegative a ^^ w.isNegative r)) := by
  rw [afterSub, test_afterResult (by decide), test_assign_of_disjoint (by decide),
    test_assign_of_disjoint (by decide), test_assign_self (by decide)]
  simp only [Width.isNegative_and, Width.isNegative_xor]

theorem test_auxiliary_afterSub (r : Dword) : test (afterSub w flags a b r) auxiliary =
    !(a.getLsbD 4 ^^ !b.getLsbD 4 ^^ r.getLsbD 4) := by
  rw [afterSub, test_afterResult (by decide), test_assign_of_disjoint (by decide),
    test_assign_self (by decide), and_sixteen_eq_zero, BitVec.getLsbD_xor, BitVec.getLsbD_xor,
    BitVec.getLsbD_not, decide_eq_true (by decide), Bool.true_and]

variable {w : Width} {flags a b : Dword} {c : Bool}

/-- The flags of a sum, for operands without bits above the width. -/
theorem isSum_afterAdd (w : Width) (flags a b : Dword) (c : Bool) {r : Dword}
    (hr : r = sumWith w (w.truncate a) (w.truncate b) c) :
    IsSum w a b c r (afterAdd w flags (w.truncate a) (w.truncate b) (bitWord c) r) where
  result := by
    rw [hr]
    exact toNat_sumWith w _ _ c
  carry := by
    have hmask : w.mask.toNat + 1 = 2 ^ w.bits := by cases w <;> rfl
    rw [test_carry_afterAdd, toNat_bitWord, ← hmask, decide_eq_true_iff]
    exact Nat.lt_iff_add_one_le
  overflow := by
    rw [test_overflow_afterAdd, hr, ← not_holds_sum_iff, Width.toInt_truncate,
      Width.toInt_truncate]
  auxiliary := by
    have hlt : 4 < w.bits := by cases w <;> decide
    rw [test_auxiliary_afterAdd, hr, ← carry_eq hlt, BitVec.carry, decide_eq_true_iff]
    rfl

/-- The flags of a difference, for operands without bits above the width. -/
theorem isDifference_afterSub (w : Width) (flags a b : Dword) (c : Bool) {r : Dword}
    (hr : r = sumWith w (w.truncate a) (~~~w.truncate b) (!c)) :
    IsDifference w a b c r (afterSub w flags (w.truncate a) (w.truncate b) r) where
  result := by
    have hlt := (w.truncate b).isLt
    rw [hr, toNat_sumWith, BitVec.toNat_not, Width.toNat, Width.toNat]
    cases w <;> cases c <;> simp only [Width.bits] <;> simp <;> omega
  carry := by
    have hborrow := carry_complement w.bits_le (w.truncate a) (w.truncate b) c
    rw [carry_bits_eq, ← hr, Width.isNegative_not] at hborrow
    rw [test_carry_afterSub, hborrow, Bool.not_not, decide_eq_true_iff, ← Width.toNat_eq,
      ← Width.toNat_eq, Width.toNat_truncate_eq, Width.toNat_truncate_eq]
  overflow := by
    -- The complement of a number is one less than its negation, which the carry makes up for.
    have hdiff : w.toInt a - w.toInt b - c.toNat =
        w.toInt (w.truncate a) + w.toInt (~~~w.truncate b) + (!c).toNat := by
      rw [Width.toInt_not, Width.toInt_truncate, Width.toInt_truncate]
      cases c <;> simp <;> omega
    rw [hdiff, not_holds_sum_iff, ← hr, test_overflow_afterSub, Width.isNegative_not]
    cases w.isNegative (w.truncate a) <;> cases w.isNegative (w.truncate b) <;>
      cases w.isNegative r <;> decide
  auxiliary := by
    have hlt : 4 < w.bits := by cases w <;> decide
    have hborrow := carry_complement (by decide : 4 ≤ 32) (w.truncate a) (w.truncate b) c
    rw [carry_eq hlt, ← hr, BitVec.getLsbD_not, decide_eq_true (by decide), Bool.true_and]
      at hborrow
    rw [test_auxiliary_afterSub, hborrow, Bool.not_not, decide_eq_true_iff]
    rfl

/-- The flags of an operation on each bit, for operands without bits above the width. -/
theorem isBitwise_afterLogic (w : Width) (f : Bool → Bool → Bool) (flags a b : Dword) {r : Dword}
    (hr : ∀ i, r.getLsbD i = f ((w.truncate a).getLsbD i) ((w.truncate b).getLsbD i))
    (hf : f false false = false) : IsBitwise w f flags a b r (afterLogic w flags r) where
  result := by
    intro i
    rw [hr, Width.getLsbD_truncate, Width.getLsbD_truncate]
    cases decide (i < w.bits) with
    | true => simp only [Bool.true_and]
    | false => simp only [Bool.false_and, hf]
  carry := by
    rw [afterLogic, test_afterResult (by decide)]
    exact test_assign_false (by decide) flags
  overflow := by
    rw [afterLogic, test_afterResult (by decide)]
    exact test_assign_false (by decide) flags
  auxiliary := by
    rw [afterLogic, test_afterResult (by decide)]
    have hdisjoint : auxiliary &&& (overflow ||| carry) = 0 := by decide
    exact test_assign_of_disjoint hdisjoint flags false

end Flags

/-! ## The operations -/

open Flags

/-- What an operation on two operands computes: its result and the flags after it. -/
def AluOp.Computes (w : Width) (flags a b : Dword) (outcome : Dword × Dword) : AluOp → Prop
  | .add => IsSum w a b false outcome.1 outcome.2
  | .adc => IsSum w a b (test flags carry) outcome.1 outcome.2
  | .sub | .cmp => IsDifference w a b false outcome.1 outcome.2
  | .sbb => IsDifference w a b (test flags carry) outcome.1 outcome.2
  | .and => IsBitwise w (· && ·) flags a b outcome.1 outcome.2
  | .or => IsBitwise w (· || ·) flags a b outcome.1 outcome.2
  | .xor => IsBitwise w (· ^^ ·) flags a b outcome.1 outcome.2

theorem AluOp.computes_apply (w : Width) (op : AluOp) (flags a b : Dword) :
    op.Computes w flags a b (op.apply w flags a b) := by
  cases op with
  | add =>
    have hsum : w.truncate (w.truncate a + w.truncate b) =
        sumWith w (w.truncate a) (w.truncate b) false := by
      rw [sumWith, show bitWord false = 0#32 from rfl, BitVec.add_zero]
    exact isSum_afterAdd w flags a b false hsum
  | adc =>
    simp only [Computes, apply, and_carry_eq]
    exact isSum_afterAdd w flags a b (test flags carry) rfl
  | sub => exact isDifference_afterSub w flags a b false (truncate_sub_eq w _ _)
  | cmp => exact isDifference_afterSub w flags a b false (truncate_sub_eq w _ _)
  | sbb =>
    refine isDifference_afterSub w flags a b (test flags carry) ?_
    rw [← borrow_sum_eq, ← and_carry_eq]
    rfl
  | and => exact isBitwise_afterLogic w (· && ·) flags a b (fun _ => BitVec.getLsbD_and) rfl
  | or => exact isBitwise_afterLogic w (· || ·) flags a b (fun _ => BitVec.getLsbD_or) rfl
  | xor => exact isBitwise_afterLogic w (· ^^ ·) flags a b (fun _ => BitVec.getLsbD_xor) rfl

theorem AluOp.describes_apply (w : Width) (op : AluOp) (flags a b : Dword) :
    Describes w (op.apply w flags a b).1 (op.apply w flags a b).2 := by
  cases op <;> exact describes_afterResult w _ _

/-! ## Operations on one operand -/

namespace Flags

variable {w : Width} {flags flags' : Dword}

/-- Carry, put back to what it was. -/
theorem keepCarry_eq (flags flags' : Dword) :
    (flags' &&& ~~~carry) ||| (flags &&& carry) = assign flags' carry (test flags carry) := by
  rw [and_carry_eq, assign]
  cases test flags carry with
  | false => exact BitVec.or_zero
  | true =>
    apply BitVec.eq_of_getLsbD_eq
    intro i _
    have hone : (bitWord true).getLsbD i = carry.getLsbD i := rfl
    simp only [BitVec.getLsbD_or, BitVec.getLsbD_and, BitVec.getLsbD_not, hone, if_true]
    cases carry.getLsbD i <;> simp_all

/-- Flags registers that differ in carry alone are made equal by assigning it. -/
theorem SameOutside.assign_carry (h : SameOutside carry flags flags') (on : Bool) :
    Flags.assign flags' carry on = Flags.assign flags carry on :=
  ((h.assign_both carry on).mono (by decide)).eq_of_empty

/-- The carry before a result does not reach the other flags. -/
theorem sameOutside_afterResult_carry (w : Width) (flags : Dword) (on on' : Bool) (r : Dword) :
    SameOutside carry (afterResult w (assign flags carry on) r)
      (afterResult w (assign flags carry on') r) := by
  have hcarry : SameOutside carry (assign flags carry on) (assign flags carry on') := by
    intro i hi
    rw [getLsbD_assign hi, getLsbD_assign hi]
  exact (((hcarry.assign_both _ _).assign_both _ _).assign_both _ _).mono (by decide)

/-- The flags of a difference do not depend on bits above the width. -/
theorem afterSub_truncate (w : Width) (flags a b r : Dword) :
    afterSub w flags (w.truncate a) (w.truncate b) r = afterSub w flags a b r := by
  have hlt : 4 < w.bits := by cases w <;> decide
  simp only [afterSub, Width.isNegative_and, Width.isNegative_or, Width.isNegative_xor,
    Width.isNegative_not, Width.isNegative_truncate, and_sixteen_eq_zero, BitVec.getLsbD_xor,
    BitVec.getLsbD_not, Width.getLsbD_truncate_of_lt hlt]

/-- Nor do those of a sum, save carry. -/
theorem afterAdd_truncate (w : Width) (flags a b carryIn r : Dword) :
    SameOutside carry (afterAdd w flags (w.truncate a) (w.truncate b) carryIn r)
      (afterAdd w flags a b carryIn r) := by
  have hlt : 4 < w.bits := by cases w <;> decide
  simp only [afterAdd, Width.isNegative_and, Width.isNegative_xor, Width.isNegative_truncate, bne,
    and_sixteen_eq_zero, BitVec.getLsbD_xor, Width.getLsbD_truncate_of_lt hlt]
  exact sameOutside_afterResult_carry w _ _ _ r

end Flags

/-- The outcome of an operation, but with the carry of the flags before it. -/
def keepingCarry (flags : Dword) (outcome : Dword × Dword) : Dword × Dword :=
  (outcome.1, assign outcome.2 carry (test flags carry))

theorem negate_eq (w : Width) (flags value : Dword) :
    negate w flags value = AluOp.sub.apply w flags 0 value := by
  simp only [negate, AluOp.apply, truncate_sub_truncate, afterSub_truncate]

theorem increment_eq (w : Width) (flags value : Dword) :
    increment w flags value = keepingCarry flags (AluOp.add.apply w flags value 1) := by
  have hone : w.truncate 1 = 1 := by cases w <;> rfl
  have hflags := (afterAdd_truncate w flags value 1 0 (w.truncate (value + 1))).assign_carry
    (test flags carry)
  rw [hone] at hflags
  simp only [increment, afterInc, keepCarry_eq, keepingCarry, AluOp.apply, hone,
    Width.truncate_truncate_add, hflags]

theorem decrement_eq (w : Width) (flags value : Dword) :
    decrement w flags value = keepingCarry flags (AluOp.sub.apply w flags value 1) := by
  simp only [decrement, afterDec, keepCarry_eq, keepingCarry, AluOp.apply, truncate_sub_truncate,
    afterSub_truncate]

/-- Every operation on two operands computes what it stands for in integer arithmetic, with flags
that tell of it.  A negation is a difference from zero, and a step by one differs from the sum or
the difference in carry alone. -/
theorem arithmetic_computes (w : Width) (flags a b : Dword) :
    (∀ op : AluOp, op.Computes w flags a b (op.apply w flags a b) ∧
      Describes w (op.apply w flags a b).1 (op.apply w flags a b).2) ∧
    negate w flags a = AluOp.sub.apply w flags 0 a ∧
    increment w flags a = keepingCarry flags (AluOp.add.apply w flags a 1) ∧
    decrement w flags a = keepingCarry flags (AluOp.sub.apply w flags a 1) := by
  refine ⟨fun op => ⟨?computes, ?describes⟩, ?negate, ?increment, ?decrement⟩
  case computes => exact op.computes_apply w flags a b
  case describes => exact op.describes_apply w flags a b
  case negate => exact negate_eq w flags a
  case increment => exact increment_eq w flags a
  case decrement => exact decrement_eq w flags a

end Ia32
