import Mathlib.Algebra.BigOperators.Group.Finset.Basic
import Ia32.Instr.Fpu.Transfer

/-!
# Packed decimals

A packed decimal has eighteen digits, two in a byte with the lower one in the low four
bits, and then a byte for the sign.  Each step of the conversion takes two
digits off a number (`packDigits`).  That the digit numbered `i` is the digit of the number at
`10 ^ i` holds for any number of bytes, by induction on it, and the digits below `10 ^ k`
are the remainder by it (`sum_digits`).
-/

namespace Ia32

open FloatExec

/-- A half of a byte, where those of the first byte are numbered zero and one. -/
def nibble (bytes : List Byte) (i : Nat) : Nat := (bytes.getD (i / 2) 0).toNat / 16 ^ (i % 2) % 16

/-- Ten bytes stand for a magnitude with a sign, as a packed decimal. -/
structure IsPackedDecimal (sign : Bool) (magnitude : Nat) (bytes : List Byte) : Prop where
  length : bytes.length = 10
  digits : ∀ i < 18, nibble bytes i ≤ 9
  value : ∑ i ∈ Finset.range 18, nibble bytes i * 10 ^ i = magnitude
  sign : bytes[9]? = some (if sign then 0x80 else 0)

theorem nibble_cons (b : Byte) (bytes : List Byte) (i : Nat) :
    nibble (b :: bytes) (i + 2) = nibble bytes i := by
  have hhalf : (i + 2) / 2 = i / 2 + 1 := by omega
  have hparity : (i + 2) % 2 = i % 2 := by omega
  rw [nibble, nibble, hhalf, hparity, List.getD_cons_succ]

/-- The digits of a number are those at the powers of ten. -/
theorem nibble_packDigits (bytes n : Nat) (tail : List Byte) {i : Nat} (hi : i < 2 * bytes) :
    nibble (packDigits bytes n ++ tail) i = n / 10 ^ i % 10 := by
  induction bytes generalizing n i with
  | zero => omega
  | succ bytes ih =>
    have hbyte : (BitVec.ofNat 8 (n / 10 % 10 * 16 + n % 10)).toNat =
        n / 10 % 10 * 16 + n % 10 := by
      rw [BitVec.toNat_ofNat]
      omega
    rw [packDigits, List.cons_append]
    match i with
    | 0 =>
      have hlow : (n / 10 % 10 * 16 + n % 10) / 1 % 16 = n / 1 % 10 := by omega
      simpa only [nibble, Nat.zero_div, Nat.zero_mod, List.getD_cons_zero, hbyte, pow_zero]
        using hlow
    | 1 =>
      have hhigh : (n / 10 % 10 * 16 + n % 10) / 16 % 16 = n / 10 % 10 := by omega
      simpa only [nibble, Nat.reduceDiv, Nat.reduceMod, List.getD_cons_zero, hbyte, pow_one]
        using hhigh
    | i + 2 =>
      have hhundred : (100 : Nat) = 10 ^ 2 := rfl
      have hpow : n / 100 / 10 ^ i = n / 10 ^ (i + 2) := by
        rw [hhundred, Nat.div_div_eq_div_mul, ← pow_add, Nat.add_comm]
      rw [nibble_cons, ih _ (by omega), hpow]

theorem length_packDigits (bytes n : Nat) : (packDigits bytes n).length = bytes := by
  induction bytes generalizing n with
  | zero => rfl
  | succ bytes ih => rw [packDigits, List.length_cons, ih]

/-- The digits below a power of ten are the remainder by it. -/
theorem sum_digits (n k : Nat) : ∑ i ∈ Finset.range k, n / 10 ^ i % 10 * 10 ^ i = n % 10 ^ k := by
  induction k with
  | zero => rw [Finset.sum_range_zero, pow_zero, Nat.mod_one]
  | succ k ih => rw [Finset.sum_range_succ, ih, Nat.mod_pow_succ, Nat.mul_comm]

theorem isPackedDecimal_packedDecimal (sign : Bool) {magnitude : Nat}
    (h : magnitude < 10 ^ 18) : IsPackedDecimal sign magnitude (packedDecimal sign magnitude) := by
  have hdigit (i : Nat) (hi : i < 18) :
      nibble (packedDecimal sign magnitude) i = magnitude / 10 ^ i % 10 :=
    nibble_packDigits decimalBytes magnitude _ hi
  refine ⟨?length, ?digits, ?value, ?sign⟩
  case length => rw [packedDecimal, List.length_append, length_packDigits]; rfl
  case digits =>
    intro i hi
    have hlt := Nat.mod_lt (magnitude / 10 ^ i) (by decide : 10 > 0)
    rw [hdigit i hi]
    omega
  case value =>
    calc ∑ i ∈ Finset.range 18, nibble (packedDecimal sign magnitude) i * 10 ^ i
        = ∑ i ∈ Finset.range 18, magnitude / 10 ^ i % 10 * 10 ^ i :=
          Finset.sum_congr rfl fun i hi => by rw [hdigit i (Finset.mem_range.1 hi)]
      _ = magnitude % 10 ^ 18 := sum_digits magnitude 18
      _ = magnitude := Nat.mod_eq_of_lt h
  case sign =>
    have hlength := length_packDigits decimalBytes magnitude
    rw [packedDecimal, List.getElem?_append_right (by rw [hlength]; decide), hlength]
    rfl

end Ia32
