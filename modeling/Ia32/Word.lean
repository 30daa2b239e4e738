/-!
# Machine words

A word is a bit vector of 8, 16, 32 or 64 bits.  A byte sequence stands for the
number whose base 256 digits it lists, least significant first: `littleEndian`
reads such a sequence and `bytesOf` writes one.
-/

namespace Ia32

/-- Eight bits. -/
abbrev Byte := BitVec 8

/-- Sixteen bits. -/
abbrev Word := BitVec 16

/-- Thirty-two bits. -/
abbrev Dword := BitVec 32

/-- Sixty-four bits. -/
abbrev Qword := BitVec 64

/-- The number a byte sequence stands for, least significant byte first. -/
def littleEndian : List Byte → Nat
  | [] => 0
  | b :: bs => b.toNat + 256 * littleEndian bs

/-- The low `n` bytes of a number, least significant first. -/
def bytesOf : Nat → Nat → List Byte
  | 0, _ => []
  | n + 1, value => BitVec.ofNat 8 value :: bytesOf n (value / 256)

@[simp] theorem length_bytesOf (n value : Nat) : (bytesOf n value).length = n := by
  induction n generalizing value with
  | zero => rfl
  | succ n ih => simp [bytesOf, ih]

theorem littleEndian_lt (bytes : List Byte) : littleEndian bytes < Nat.pow 256 bytes.length := by
  induction bytes with
  | nil => decide
  | cons b bytes ih =>
    have hb : b.toNat < 256 := b.isLt
    have hpow : Nat.pow 256 (bytes.length + 1) = 256 * Nat.pow 256 bytes.length := Nat.mul_comm _ _
    rw [littleEndian, List.length_cons, hpow]
    omega

/-- Reading back the low `n` bytes gives the number modulo `256 ^ n`. -/
theorem littleEndian_bytesOf (n value : Nat) :
    littleEndian (bytesOf n value) = value % Nat.pow 256 n := by
  induction n generalizing value with
  | zero => simp [bytesOf, littleEndian, Nat.mod_one]
  | succ n ih =>
    have h : Nat.pow 256 (n + 1) = 256 * Nat.pow 256 n := Nat.mul_comm _ _
    rw [h, Nat.mod_mul]
    simp only [bytesOf, littleEndian, ih, BitVec.toNat_ofNat, Nat.reducePow]

/-- A word of `n` bytes is read back from its bytes. -/
theorem ofNat_littleEndian_bytesOf (n : Nat) (w : BitVec (8 * n)) :
    BitVec.ofNat (8 * n) (littleEndian (bytesOf n w.toNat)) = w := by
  have hpow : Nat.pow 256 n = 2 ^ (8 * n) := (Nat.pow_mul 2 8 n).symm
  rw [littleEndian_bytesOf, hpow, Nat.mod_eq_of_lt w.isLt, BitVec.ofNat_toNat, BitVec.setWidth_eq]

/-- A byte sequence is determined by its length and the number it stands for. -/
theorem bytesOf_littleEndian (bs : List Byte) :
    bytesOf bs.length (littleEndian bs) = bs := by
  induction bs with
  | nil => rfl
  | cons b bs ih =>
    have hb : b.toNat < 256 := b.isLt
    have hd : (b.toNat + 256 * littleEndian bs) / 256 = littleEndian bs := by omega
    simp only [List.length_cons, bytesOf, littleEndian, hd, ih, List.cons.injEq, and_true]
    apply BitVec.eq_of_toNat_eq
    simp only [BitVec.toNat_ofNat]
    omega

-- The lowest byte comes first.
example : littleEndian [0x44, 0x33] = 0x3344 ∧ bytesOf 2 0x3344 = [0x44, 0x33] := by decide

/-- The bytes of the word that a byte sequence stands for are the sequence. -/
theorem bytesOf_ofNat_littleEndian (bs : List Byte) :
    bytesOf bs.length (BitVec.ofNat (8 * bs.length) (littleEndian bs)).toNat = bs := by
  have hpow : Nat.pow 256 bs.length = 2 ^ (8 * bs.length) := (Nat.pow_mul 2 8 bs.length).symm
  rw [BitVec.toNat_ofNat, ← hpow, Nat.mod_eq_of_lt (littleEndian_lt bs), bytesOf_littleEndian]

/-- A single bit of a word. -/
theorem and_twoPow_ne_zero_iff {w i : Nat} (hi : i < w) (x : BitVec w) :
    x &&& BitVec.twoPow w i ≠ 0 ↔ x.getLsbD i = true := by
  have hne : BitVec.twoPow w i ≠ 0 := fun h => by
    simpa [hi] using congrArg (BitVec.getLsbD · i) h
  rw [BitVec.and_twoPow]
  split
  next h => exact iff_of_true hne h
  next h => exact iff_of_false (fun hne => hne rfl) h

/-- A single bit of a word, as programs test it. -/
theorem and_twoPow_bne_zero {w i : Nat} (hi : i < w) (x : BitVec w) :
    (x &&& BitVec.twoPow w i != 0) = x.getLsbD i := by
  rw [Bool.eq_iff_iff, bne_iff_ne, and_twoPow_ne_zero_iff hi]

/-- A word that is extended and cut again. -/
theorem Word.setWidth_dword (w : Word) : (w.setWidth 32).setWidth 16 = w := by
  rw [BitVec.setWidth_setWidth_of_le _ (by decide), BitVec.setWidth_eq]

namespace Byte

/-- Whether a byte has an even number of one bits. -/
def evenParity (b : Byte) : Bool :=
  !((List.range 8).foldl (fun odd i => odd ^^ b.getLsbD i) false)

end Byte

end Ia32
