import Ia32.Segment.Cache

/-!
# Bounds of segments

A descriptor of a code or data segment says which offsets are valid: those up to
its limit, or, for data that grows downward, those above its limit.  The limit is
a number of bytes or of pages.  A segment register holds the valid offsets as one
range instead, from a first to a last byte.

The two agree but for one kind of descriptor.  Data that grows downward from the
greatest limit of all has no valid offset, but its range starts over at zero.
-/

namespace Ia32

/-! ## What a descriptor says -/

namespace Descriptor

/-- Whether it describes a code or data segment. -/
def isSegment (d : Descriptor) : Bool := d.high.getLsbD 12

/-- Whether it describes data that grows downward. -/
def growsDown (d : Descriptor) : Bool := !d.high.getLsbD 11 && d.high.getLsbD 10

/-- The twenty bits of the limit. -/
def limitField (d : Descriptor) : BitVec 20 := d.high.extractLsb' 16 4 ++ d.low.extractLsb' 0 16

/-- The limit as a number of bytes.  It is given in bytes, or in pages of which the last one is
counted to its end. -/
def byteLimit (d : Descriptor) : Nat :=
  if d.high.getLsbD 23 then 4096 * d.limitField.toNat + 4095 else d.limitField.toNat

/-- The greatest offset of a segment that grows downward. -/
def greatestOffset (d : Descriptor) : Nat := if d.high.getLsbD 22 then 0xFFFFFFFF else 0xFFFF

/-- Whether `len` bytes from an offset on are valid. -/
def Allows (d : Descriptor) (offset len : Nat) : Prop :=
  if d.growsDown then d.byteLimit < offset ∧ offset + len - 1 ≤ d.greatestOffset
  else offset + len - 1 ≤ d.byteLimit

instance (d : Descriptor) (offset len : Nat) : Decidable (d.Allows offset len) :=
  inferInstanceAs (Decidable (if d.growsDown = true then _ ∧ _ else _ ≤ _))

/-- The descriptor of data that grows downward from the greatest limit of all. -/
structure GrowsFromTop (d : Descriptor) : Prop where
  growsDown : d.growsDown = true
  limit : d.byteLimit = 0xFFFFFFFF

/-! ## Fields -/

theorem isGranular_eq (d : Descriptor) : d.isGranular = d.high.getLsbD 23 :=
  and_twoPow_bne_zero (by decide : 23 < 32) d.high

theorem isDefault32_eq (d : Descriptor) : d.isDefault32 = d.high.getLsbD 22 :=
  and_twoPow_bne_zero (by decide : 22 < 32) d.high

/-- The type of a segment is that of data that grows downward. -/
theorem isExpandDown_eq {d : Descriptor} (hs : d.isSegment = true) :
    d.isExpandDown = d.growsDown := by
  have hkind : ∀ k : BitVec 5, (k &&& 0x1C == 0x14) =
      (k.getLsbD 4 && !k.getLsbD 3 && k.getLsbD 2) := by decide
  have hbit : ∀ i < 5, d.kind.getLsbD i = d.high.getLsbD (8 + i) := fun i hi => by
    simp [kind, hi]
  rw [isExpandDown, hkind, hbit 4 (by decide), hbit 3 (by decide), hbit 2 (by decide)]
  rw [show d.high.getLsbD (8 + 4) = true from hs, Bool.true_and, growsDown]

/-- The two parts of the limit, put together in a double word. -/
theorem limit_units_eq (d : Descriptor) :
    (d.high &&& 0x000F0000) ||| (d.low &&& 0xFFFF) = d.limitField.setWidth 32 := by
  have hupper : ∀ i < 32, (0x000F0000 : Dword).getLsbD i = decide (16 ≤ i ∧ i < 20) := by decide
  have hlower : ∀ i < 32, (0xFFFF : Dword).getLsbD i = decide (i < 16) := by decide
  apply BitVec.eq_of_getLsbD_eq
  intro i hi
  simp only [BitVec.getLsbD_or, BitVec.getLsbD_and, hupper i hi, hlower i hi, limitField,
    BitVec.getLsbD_setWidth, BitVec.getLsbD_append, BitVec.getLsbD_extractLsb']
  by_cases hlow : i < 16
  · simp [hlow, hi, show ¬16 ≤ i by omega]
  · have hplace : 16 + (i - 16) = i := by omega
    have hrange : decide (16 ≤ i ∧ i < 20) = decide (i - 16 < 4) := by
      rw [decide_eq_decide]; omega
    simp [hlow, hi, hplace, hrange, Bool.and_comm]

theorem toNat_limit (d : Descriptor) : d.limit.toNat = d.byteLimit := by
  have hlt : d.limitField.toNat < 2 ^ 20 := d.limitField.isLt
  have hbytes : (d.limitField.setWidth 32).toNat = d.limitField.toNat := by
    rw [BitVec.toNat_setWidth, Nat.mod_eq_of_lt (by omega)]
  have hpages : (d.limitField.setWidth 32 <<< 12 ||| 0xFFF).toNat =
      4096 * d.limitField.toNat + 4095 := by
    have hshift : (d.limitField.setWidth 32 <<< 12).toNat = d.limitField.toNat <<< 12 := by
      rw [BitVec.toNat_shiftLeft, hbytes, Nat.mod_eq_of_lt (by rw [Nat.shiftLeft_eq]; omega)]
    have hlow : (0xFFF : Dword).toNat = 4095 := rfl
    rw [BitVec.toNat_or, hshift, hlow, ← Nat.shiftLeft_add_eq_or_of_lt (by decide),
      Nat.shiftLeft_eq]
    omega
  simp only [limit, limit_units_eq, isGranular_eq, byteLimit]
  split
  · exact hpages
  · exact hbytes

/-- The byte above the limit, where the valid offsets of a segment that grows downward start. -/
theorem toNat_limit_add_one (d : Descriptor) :
    (d.limit + 1).toNat = if d.byteLimit = 0xFFFFFFFF then 0 else d.byteLimit + 1 := by
  have hlt : d.limit.toNat < 2 ^ 32 := d.limit.isLt
  rw [BitVec.toNat_add, d.toNat_limit] at *
  have hone : (1 : Dword).toNat = 1 := rfl
  split <;> omega

end Descriptor

/-! ## What a segment register holds -/

namespace SegmentCache

open Descriptor

variable (selector : Word) {d : Descriptor}

/-- The range of a segment that grows downward. -/
theorem contains_ofDescriptor_growsDown_iff (hs : d.isSegment = true) (hdown : d.growsDown = true)
    (offset : Dword) (len : Nat) :
    (ofDescriptor selector d).contains offset len = true ↔
      (d.byteLimit = 0xFFFFFFFF ∨ d.byteLimit < offset.toNat) ∧
        offset.toNat + len - 1 ≤ d.greatestOffset := by
  have hfirst : (ofDescriptor selector d).firstByte = d.limit + 1 := by
    simp [ofDescriptor, isExpandDown_eq hs, hdown]
  have hlast : (ofDescriptor selector d).lastByte.toNat = d.greatestOffset := by
    simp only [ofDescriptor, isExpandDown_eq hs, hdown, isDefault32_eq, greatestOffset, if_true]
    split <;> rfl
  rw [contains, Bool.and_eq_true, decide_eq_true_iff, decide_eq_true_iff, hfirst, hlast,
    toNat_limit_add_one]
  by_cases htop : d.byteLimit = 0xFFFFFFFF
  · simp [htop]
  · simp only [htop, if_false, false_or, Nat.succ_le_iff]

/-- The range of a segment that grows upward. -/
theorem contains_ofDescriptor_growsUp_iff (hs : d.isSegment = true) (hup : d.growsDown = false)
    (offset : Dword) (len : Nat) :
    (ofDescriptor selector d).contains offset len = true ↔
      offset.toNat + len - 1 ≤ d.byteLimit := by
  simp [contains, ofDescriptor, isExpandDown_eq hs, hup, toNat_limit]

/-- The range of a segment register holds the bytes that the descriptor allows.  Besides them it
holds all offsets of a segment that grows downward from the greatest limit. -/
theorem contains_ofDescriptor_iff (hs : d.isSegment = true) (offset : Dword) (len : Nat) :
    (ofDescriptor selector d).contains offset len = true ↔
      d.Allows offset.toNat len ∨
        (d.GrowsFromTop ∧ offset.toNat + len - 1 ≤ d.greatestOffset) := by
  cases hdown : d.growsDown with
  | false =>
    have hnever : ¬d.GrowsFromTop := fun h => by simp [h.growsDown] at hdown
    simp [contains_ofDescriptor_growsUp_iff selector hs hdown, Allows, hdown, hnever]
  | true =>
    have htop : d.GrowsFromTop ↔ d.byteLimit = 0xFFFFFFFF := ⟨fun h => h.limit, fun h => ⟨hdown, h⟩⟩
    rw [contains_ofDescriptor_growsDown_iff selector hs hdown, Allows, if_pos hdown, htop,
      or_and_right]
    exact or_comm

/-- Data that grows downward from 4 KiB: of the four bytes at `0x0FFE` only two are valid. -/
theorem contains_ofDescriptor_aboveFirstPage :
    Descriptor.isSegment ⟨0x00000FFF, 0x00409600⟩ = true ∧
      ((ofDescriptor 0x10 ⟨0x00000FFF, 0x00409600⟩).contains 0x0FFE 4 = true ↔
        Descriptor.Allows ⟨0x00000FFF, 0x00409600⟩ 0x0FFE 4 ∨
          (Descriptor.GrowsFromTop ⟨0x00000FFF, 0x00409600⟩ ∧
            0x0FFE + 4 - 1 ≤ Descriptor.greatestOffset ⟨0x00000FFF, 0x00409600⟩)) ∧
      (ofDescriptor 0x10 ⟨0x00000FFF, 0x00409600⟩).contains 0x0FFE 4 = false :=
  ⟨by decide, contains_ofDescriptor_iff 0x10 (by decide) 0x0FFE 4, by decide⟩

/-- Data that grows downward from the top of 4 GiB has no valid offset.  Its range holds zero. -/
theorem contains_ofDescriptor_growsFromTop :
    Descriptor.isSegment ⟨0x0000FFFF, 0x00CF9600⟩ = true ∧
      (ofDescriptor 0x10 ⟨0x0000FFFF, 0x00CF9600⟩).contains 0 1 = true ∧
      ¬Descriptor.Allows ⟨0x0000FFFF, 0x00CF9600⟩ 0 1 := by
  decide

end SegmentCache

end Ia32
