import Mathlib.Algebra.Ring.Int.Defs
import Ia32.Proofs.CodeParsing
import Ia32.Proofs.IndexRegisters

/-!
# Forms of addresses

An address is the sum of a base register, an index register times a power of two, and
a signed displacement, and it wraps at its width.  A form says which of these parts
there are.  For 16-bit addresses the mode byte names one of eight pairs of registers.
For 32-bit addresses it names a base, or it calls for a scale byte that names base,
index and scale.  The tables below give the forms, and the program that takes an
operand from the code follows them.
-/

namespace Ia32

open Host Exec

/-! ## Forms -/

/-- The parts that an address is made of. -/
structure AddressForm where
  /-- The base register. -/
  base : Option Reg
  /-- The index register. -/
  index : Option Reg
  /-- The power of two that the index is multiplied with. -/
  scale : Nat
  /-- The number of bytes of the displacement. -/
  displacement : Nat
deriving DecidableEq, Repr

namespace AddressForm

/-- The bytes of the displacement behind registers, by the mode. -/
def displacementBytes (w : Width) (mode : BitVec 2) : Nat :=
  match mode.toNat with
  | 0 => 0
  | 1 => 1
  | _ => w.bytes

/-- The base and the index of a 16-bit address. -/
def wordRegisters (rm : BitVec 3) : Option Reg × Option Reg :=
  match rm.toNat with
  | 0 => (some Reg.ebx, some Reg.esi)
  | 1 => (some Reg.ebx, some Reg.edi)
  | 2 => (some Reg.ebp, some Reg.esi)
  | 3 => (some Reg.ebp, some Reg.edi)
  | 4 => (none, some Reg.esi)
  | 5 => (none, some Reg.edi)
  | 6 => (some Reg.ebp, none)
  | _ => (some Reg.ebx, none)

/-- The form of a 16-bit address. -/
def ofWord (mode : BitVec 2) (rm : BitVec 3) : AddressForm :=
  if mode = 0 ∧ rm = 6 then ⟨none, none, 0, 2⟩
  else ⟨(wordRegisters rm).1, (wordRegisters rm).2, 0, displacementBytes .word mode⟩

/-- The form of a 32-bit address without an index.  Field five of mode zero is no base but a
displacement. -/
def ofBase (mode : BitVec 2) (field : BitVec 3) : AddressForm :=
  if mode = 0 ∧ field = 5 then ⟨none, none, 0, 4⟩
  else ⟨some (Reg.ofBits field), none, 0, displacementBytes .dword mode⟩

/-- The form of a 32-bit address with a scale byte, which gives scale, index and base.  Index four
stands for no index. -/
def ofScale (mode : BitVec 2) (b : Byte) : AddressForm :=
  let index := b.extractLsb' 3 3
  { ofBase mode (b.extractLsb' 0 3) with
    index := if index = 4 then none else some (Reg.ofBits index)
    scale := (b.extractLsb' 6 2).toNat }

/-- Addresses that start from the stack pointer or the frame pointer lie in the stack segment, and
all others in the data segment. -/
def segment (f : AddressForm) : Seg :=
  if f.base = some Reg.esp ∨ f.base = some Reg.ebp then .ss else .ds

/-- The value of a part of an address. -/
def part (w : Width) (s : Processor) (r? : Option Reg) : Int :=
  match r? with
  | some r => (s.reg w r).toNat
  | none => 0

/-- The sum of the parts of an address, which wraps at the width. -/
def offset (f : AddressForm) (w : Width) (s : Processor) (displacement : Int) : Dword :=
  BitVec.ofInt 32 ((part w s f.base + part w s f.index * 2 ^ f.scale + displacement) % 2 ^ w.bits)

end AddressForm

/-! ## Codes of addresses -/

/-- The signed number that a byte sequence stands for, least significant byte first. -/
def signedLittleEndian (bytes : List Byte) : Int :=
  (littleEndian bytes : Int).bmod (256 ^ bytes.length)

/-- What follows a mode byte in the code and belongs to an address. -/
structure AddressCode where
  /-- The scale byte. -/
  scale : Option Byte
  /-- The displacement. -/
  displacement : List Byte
deriving DecidableEq, Repr

namespace AddressCode

/-- The bytes in the order of the code. -/
def bytes (c : AddressCode) : List Byte := c.scale.toList ++ c.displacement

/-- The form of an address of a width, behind a mode byte. -/
def form (c : AddressCode) (w : Width) (b : ModeByte) : AddressForm :=
  match w, c.scale with
  | .dword, some scale => .ofScale b.mode scale
  | .dword, none => .ofBase b.mode b.rm
  | _, _ => .ofWord b.mode b.rm

/-- A 32-bit address with field four has a scale byte, and the displacement has as many bytes as
the form says. -/
structure Fits (c : AddressCode) (w : Width) (b : ModeByte) : Prop where
  scale : c.scale.isSome = (w == .dword && b.rm == 4)
  displacement : c.displacement.length = (c.form w b).displacement

/-- The segment and the offset of the address. -/
def address (c : AddressCode) (w : Width) (b : ModeByte) (s : Processor) : Seg × Dword :=
  ((c.form w b).segment, (c.form w b).offset w s (signedLittleEndian c.displacement))

end AddressCode

/-! ## Numbers -/

theorem Width.truncate_ofInt (w : Width) (n : Int) :
    w.truncate (BitVec.ofInt 32 n) = BitVec.ofInt 32 (n % 2 ^ w.bits) := by
  apply BitVec.eq_of_toNat_eq
  rw [Width.toNat_truncate, BitVec.toNat_ofInt, BitVec.toNat_ofInt]
  cases w <;> simp only [Width.bits] <;> omega

theorem signedLittleEndian_nil : signedLittleEndian [] = 0 := rfl

theorem ofInt_signedLittleEndian_singleton (b : Byte) :
    BitVec.ofInt 32 (signedLittleEndian [b]) = b.signExtend 32 := by
  have hsigned : signedLittleEndian [b] = b.toInt := by
    rw [BitVec.toInt_eq_toNat_bmod]
    rfl
  rw [hsigned]
  rfl

/-- A value of the width is the same number with and without a sign, once it wraps. -/
theorem truncate_ofNat_littleEndian {w : Width} {bytes : List Byte} (h : bytes.length = w.bytes) :
    w.truncate (BitVec.ofNat 32 (littleEndian bytes))
      = w.truncate (BitVec.ofInt 32 (signedLittleEndian bytes)) := by
  have hpow : ((256 ^ bytes.length : Nat) : Int) = 2 ^ w.bits := by
    rw [h]
    cases w <;> rfl
  rw [← BitVec.ofInt_natCast, Width.truncate_ofInt, Width.truncate_ofInt, signedLittleEndian,
    ← hpow, Int.bmod_emod]

namespace AddressForm

/-- The sum of the registers of an address. -/
def registers (f : AddressForm) (w : Width) (s : Processor) : Dword :=
  BitVec.ofInt 32 (part w s f.base + part w s f.index * 2 ^ f.scale)

variable {w : Width} {s : Processor} {f : AddressForm}

theorem offset_eq (d : Int) :
    f.offset w s d = w.truncate (f.registers w s + BitVec.ofInt 32 d) := by
  rw [offset, registers, ← BitVec.ofInt_add, Width.truncate_ofInt]

theorem ofInt_part (r : Reg) : BitVec.ofInt 32 (part w s (some r)) = s.reg w r := by
  rw [part, BitVec.ofInt_natCast, BitVec.ofNat_toNat, BitVec.setWidth_eq]

theorem ofInt_part_none : BitVec.ofInt 32 (part w s none) = 0#32 := rfl

theorem registers_eq : f.registers w s
    = BitVec.ofInt 32 (part w s f.base) + BitVec.ofInt 32 (part w s f.index) <<< f.scale := by
  have hpow : BitVec.ofInt 32 ((2 : Int) ^ f.scale) = BitVec.twoPow 32 f.scale := by
    apply BitVec.eq_of_toNat_eq
    rw [BitVec.toNat_twoPow, BitVec.toNat_ofInt]
    norm_cast
  rw [registers, BitVec.ofInt_add, BitVec.ofInt_mul, hpow, BitVec.mul_twoPow_eq_shiftLeft]

end AddressForm

namespace Exec

/-- The registers of a 16-bit address. -/
theorem base16_eq (s : Processor) {mode : BitVec 2} {rm : BitVec 3} (h : ¬(mode = 0 ∧ rm = 6)) :
    base16 s rm = ((AddressForm.ofWord mode rm).segment,
      (AddressForm.ofWord mode rm).registers .word s) := by
  rw [AddressForm.registers_eq, AddressForm.ofWord, if_neg h]
  have hcases : ∀ n : BitVec 3,
      n = 0 ∨ n = 1 ∨ n = 2 ∨ n = 3 ∨ n = 4 ∨ n = 5 ∨ n = 6 ∨ n = 7 := by decide
  obtain rfl | rfl | rfl | rfl | rfl | rfl | rfl | rfl := hcases rm
  all_goals
    refine Prod.ext (by rfl) ?_
    simp [AddressForm.wordRegisters, base16, AddressForm.ofInt_part, AddressForm.ofInt_part_none]

/-- The registers of a 32-bit address without an index. -/
theorem baseSegment_eq {mode : BitVec 2} {field : BitVec 3} (h : ¬(mode = 0 ∧ field = 5)) :
    baseSegment (Reg.ofBits field) = (AddressForm.ofBase mode field).segment := by
  simp only [AddressForm.ofBase, if_neg h, AddressForm.segment, Option.some.injEq, baseSegment]

/-! ## Displacements -/

variable {H α : Type} [Host H] {s : Processor} {mode : BitVec 2} {rm : BitVec 3}

/-- A value from the code is a displacement that wraps at the width. -/
theorem fetch_parses_signed (w : Width) :
    Parses s (fetch w : Exec H Dword) fun bs value =>
      bs.length = w.bytes ∧ value = w.truncate (BitVec.ofInt 32 (signedLittleEndian bs)) := by
  refine (fetch_parses w).congr fun bs value => and_congr_right fun hlen => ?_
  have hlt : littleEndian bs < 2 ^ w.bits := by
    have hbytes := littleEndian_lt bs
    rw [hlen] at hbytes
    cases w <;> exact hbytes
  have hvalue : w.truncate (BitVec.ofNat 32 (littleEndian bs))
      = BitVec.ofNat 32 (littleEndian bs) := by
    apply BitVec.eq_of_toNat_eq
    rw [Width.toNat_truncate, BitVec.toNat_ofNat]
    cases w <;> simp only [Width.bits] at hlt ⊢ <;> omega
  rw [← truncate_ofNat_littleEndian hlen, hvalue]

section Displaced

variable {j : Dword → Exec H α} {g : Dword → α}
  (hj : ∀ d, Parses s (j d) fun bs a => bs = [] ∧ a = g d)

include hj

theorem undisplaced_parses :
    Parses s (pure 0 >>= j) fun bs a =>
      bs.length = 0 ∧ a = g (BitVec.ofInt 32 (signedLittleEndian bs)) := by
  rw [pure_bind]
  refine (hj 0).congr fun bs a => ?_
  rw [List.length_eq_zero_iff]
  refine and_congr_right fun hbs => ?_
  rw [hbs]
  rfl

theorem shortly_displaced_parses :
    Parses s (fetchSigned8 >>= j) fun bs a =>
      bs.length = 1 ∧ a = g (BitVec.ofInt 32 (signedLittleEndian bs)) := by
  refine (fetchSigned8_parses.bind_value hj).congr fun bs a => ?_
  rw [List.length_eq_one_iff]
  constructor
  · rintro ⟨_, ⟨b, rfl, rfl⟩, rfl⟩
    exact ⟨⟨b, rfl⟩, by rw [ofInt_signedLittleEndian_singleton]⟩
  · rintro ⟨⟨b, rfl⟩, rfl⟩
    exact ⟨_, ⟨b, rfl, rfl⟩, by rw [ofInt_signedLittleEndian_singleton]⟩

theorem displaced_parses (w : Width) :
    Parses s (fetch w >>= j) fun bs a =>
      bs.length = w.bytes ∧ a = g (w.truncate (BitVec.ofInt 32 (signedLittleEndian bs))) := by
  refine ((fetch_parses_signed w).bind_value hj).congr fun bs a => ?_
  constructor
  · rintro ⟨_, ⟨hn, rfl⟩, rfl⟩
    exact ⟨hn, rfl⟩
  · rintro ⟨hn, rfl⟩
    exact ⟨_, ⟨hn, rfl⟩, rfl⟩

end Displaced

/-! ## Addresses -/

/-- The modes of memory operands. -/
theorem mode_cases (h : mode ≠ 3) : mode = 0 ∨ mode = 1 ∨ mode = 2 := by
  revert mode
  decide

theorem address16_parses (hmode : mode ≠ 3) :
    Parses s (address16 mode rm : Exec H (Seg × Dword)) fun bs a =>
      bs.length = (AddressForm.ofWord mode rm).displacement ∧
        a = ((AddressForm.ofWord mode rm).segment,
          (AddressForm.ofWord mode rm).offset .word s (signedLittleEndian bs)) := by
  unfold address16
  refine .ite (fun hdirect => ?_) fun hregisters => ?_
  · obtain ⟨rfl, rfl⟩ : mode = 0 ∧ rm = 6 := by simpa using hdirect
    refine (displaced_parses (fun d => .pure (Seg.ds, d)) .word).congr fun bs a => ?_
    rw [AddressForm.offset_eq, AddressForm.registers_eq]
    simp [AddressForm.ofWord, AddressForm.ofInt_part_none, AddressForm.segment, Width.bytes]
  · replace hregisters : ¬(mode = 0 ∧ rm = 6) := by simpa using hregisters
    extract_lets join
    have hj (d : Dword) : Parses s (join d : Exec H (Seg × Dword)) fun bs a =>
        bs = [] ∧ a = ((AddressForm.ofWord mode rm).segment,
          Width.word.truncate ((AddressForm.ofWord mode rm).registers .word s + d)) := by
      refine .view (fun _ _ => rfl) ?_
      rw [base16_eq s hregisters]
      exact .pure _
    have hbytes : (AddressForm.ofWord mode rm).displacement
        = AddressForm.displacementBytes .word mode := by
      rw [AddressForm.ofWord, if_neg hregisters]
    simp only [AddressForm.offset_eq, hbytes]
    obtain rfl | rfl | rfl := mode_cases hmode
    · exact undisplaced_parses hj
    · exact shortly_displaced_parses hj
    · refine (displaced_parses hj .word).congr fun bs a => ?_
      rw [BitVec.add_comm, Width.truncate_truncate_add, BitVec.add_comm]
      rfl

/-- The base of an address with a scale byte, which may be a displacement instead of a register. -/
theorem scaledBase_parses (mode : BitVec 2) :
    Parses s (scaledBase mode : Exec H (Seg × Dword)) fun bs a => ∃ b d, bs = b :: d ∧
      d.length = (if mode = 0 then (AddressForm.ofScale mode b).displacement else 0) ∧
      a = ((AddressForm.ofScale mode b).segment,
        (AddressForm.ofScale mode b).registers .dword s
          + BitVec.ofInt 32 (signedLittleEndian d)) := by
  have hindex : ∀ n : BitVec 3, Reg.ofBits n = Reg.esp ↔ n = 4 := by decide
  have hbase : ∀ n : BitVec 3, Reg.ofBits n = Reg.ebp ↔ n = 5 := by decide
  unfold scaledBase
  refine (fetch8_parses.bind fun b => (?_ : Parses s _ fun d a =>
      d.length = (if mode = 0 then (AddressForm.ofScale mode b).displacement else 0) ∧
      a = ((AddressForm.ofScale mode b).segment,
        (AddressForm.ofScale mode b).registers .dword s
          + BitVec.ofInt 32 (signedLittleEndian d)))).congr fun bs a => ?_
  · extract_lets scale index baseField join
    have hj (place : Seg × Dword) : Parses s (join place : Exec H (Seg × Dword)) fun bs a =>
        bs = [] ∧ a = (place.1, place.2
          + BitVec.ofInt 32 (AddressForm.part .dword s (AddressForm.ofScale mode b).index)
            <<< (AddressForm.ofScale mode b).scale) := by
      refine .ite (fun hnone => ?_) fun hsome => .view (fun _ _ => rfl) ?_
      · have hform : (AddressForm.ofScale mode b).index = none := if_pos ((hindex _).1 hnone)
        rw [hform, AddressForm.ofInt_part_none, BitVec.zero_shiftLeft]
        exact .pure _
      · have hform : (AddressForm.ofScale mode b).index = some index :=
          if_neg fun h => hsome ((hindex _).2 h)
        rw [hform, AddressForm.ofInt_part]
        exact .pure _
    refine .ite (fun hdirect => ?_) fun hregister => .view (fun _ _ => rfl) ?_
    · obtain ⟨hfield, rfl⟩ : b.extractLsb' 0 3 = 5 ∧ mode = 0 := by
        rw [Bool.and_eq_true, decide_eq_true_eq, decide_eq_true_eq] at hdirect
        exact ⟨(hbase _).1 hdirect.1, hdirect.2⟩
      have hform : AddressForm.ofBase 0 (b.extractLsb' 0 3) = ⟨none, none, 0, 4⟩ :=
        if_pos ⟨rfl, hfield⟩
      refine (displaced_parses (fun d => hj (Seg.ds, d)) .dword).congr fun d a => ?_
      rw [if_pos rfl, AddressForm.registers_eq, AddressForm.ofScale, hform,
        AddressForm.ofInt_part_none, BitVec.zero_add, Width.truncate_dword, BitVec.add_comm]
      rfl
    · have hfield : ¬(mode = 0 ∧ b.extractLsb' 0 3 = 5) := fun h => hregister (by
        rw [Bool.and_eq_true, decide_eq_true_eq, decide_eq_true_eq]
        exact ⟨(hbase _).2 h.2, h.1⟩)
      have hform : AddressForm.ofBase mode (b.extractLsb' 0 3)
          = ⟨some baseField, none, 0, AddressForm.displacementBytes .dword mode⟩ := if_neg hfield
      have hzero : (if mode = 0 then (AddressForm.ofScale mode b).displacement else 0) = 0 := by
        rw [AddressForm.ofScale, hform]
        split
        next hmode =>
          rw [hmode]
          rfl
        next => rfl
      refine (hj (baseSegment baseField, s.reg .dword baseField)).congr fun d a => ?_
      rw [hzero, List.length_eq_zero_iff]
      refine and_congr_right fun hd => ?_
      rw [hd, baseSegment_eq hfield, AddressForm.registers_eq, signedLittleEndian_nil,
        AddressForm.ofScale, hform, AddressForm.ofInt_part]
      exact Eq.congr_right (Prod.ext rfl (BitVec.add_zero _).symm)
  · constructor
    · rintro ⟨_, b, d, rfl, h, rfl⟩
      exact ⟨b, d, rfl, h⟩
    · rintro ⟨b, d, rfl, h⟩
      exact ⟨[b], b, d, rfl, h, rfl⟩

end Exec

namespace AddressCode

variable {w : Width} {b : ModeByte} {bs : List Byte} {P : AddressCode → Prop}

/-- The codes of addresses without a scale byte. -/
theorem exists_fits_iff (h : (w == .dword && b.rm == 4) = false) :
    (∃ c : AddressCode, c.Fits w b ∧ bs = c.bytes ∧ P c) ↔
      bs.length = (form ⟨none, bs⟩ w b).displacement ∧ P ⟨none, bs⟩ := by
  constructor
  · rintro ⟨⟨scale, d⟩, hfits, rfl, hc⟩
    have hscale := hfits.scale.trans h
    rw [Option.isSome_eq_false_iff, Option.isNone_iff_eq_none] at hscale
    cases hscale
    exact ⟨hfits.displacement, hc⟩
  · rintro ⟨hlen, hc⟩
    exact ⟨⟨none, bs⟩, ⟨h.symm, hlen⟩, rfl, hc⟩

/-- The codes of addresses with a scale byte. -/
theorem exists_fits_iff_scaled (h : (w == .dword && b.rm == 4) = true) :
    (∃ c : AddressCode, c.Fits w b ∧ bs = c.bytes ∧ P c) ↔
      ∃ scale d, bs = scale :: d ∧ d.length = (form ⟨some scale, d⟩ w b).displacement ∧
        P ⟨some scale, d⟩ := by
  constructor
  · rintro ⟨⟨scale?, d⟩, hfits, rfl, hc⟩
    obtain ⟨scale, rfl⟩ := Option.isSome_iff_exists.1 (hfits.scale.trans h)
    exact ⟨scale, d, rfl, hfits.displacement, hc⟩
  · rintro ⟨scale, d, rfl, hlen, hc⟩
    exact ⟨⟨some scale, d⟩, ⟨h.symm, hlen⟩, rfl, hc⟩

end AddressCode

namespace Exec

variable {H : Type} [Host H] {s : Processor} {b : ModeByte}

/-- A 16-bit address is taken from the code as its form says. -/
theorem address16_parses_code (hb : b.mode ≠ 3) :
    Parses s (address16 b.mode b.rm : Exec H (Seg × Dword)) fun bs a =>
      ∃ c : AddressCode, c.Fits .word b ∧ bs = c.bytes ∧ a = c.address .word b s :=
  (address16_parses hb).congr fun _ a =>
    (AddressCode.exists_fits_iff (w := .word) (b := b) (P := fun c => a = c.address .word b s)
      rfl).symm

/-- A 32-bit address is taken from the code as its form says. -/
theorem address32_parses_code (hb : b.mode ≠ 3) :
    Parses s (address32 b.mode b.rm : Exec H (Seg × Dword)) fun bs a =>
      ∃ c : AddressCode, c.Fits .dword b ∧ bs = c.bytes ∧ a = c.address .dword b s := by
  unfold address32
  refine .ite (fun hdirect => ?_) fun hregisters => ?_
  · rw [Bool.and_eq_true, decide_eq_true_eq, decide_eq_true_eq] at hdirect
    have hform : AddressForm.ofBase b.mode b.rm = ⟨none, none, 0, 4⟩ := if_pos hdirect
    refine (displaced_parses (fun d => .pure (Seg.ds, d)) .dword).congr fun bs a => ?_
    rw [AddressCode.exists_fits_iff (by rw [hdirect.2]; rfl)]
    simp only [AddressCode.form, AddressCode.address, hform, AddressForm.offset_eq,
      AddressForm.registers_eq, AddressForm.ofInt_part_none, BitVec.zero_shiftLeft, BitVec.zero_add]
    rfl
  · extract_lets join
    have hj (place : Seg × Dword) : Parses s (join place : Exec H (Seg × Dword)) fun d a =>
        d.length = AddressForm.displacementBytes .dword b.mode ∧
          a = (place.1, place.2 + BitVec.ofInt 32 (signedLittleEndian d)) := by
      have hsum (d : Dword) : Parses s (pure (place.1, place.2 + d) : Exec H (Seg × Dword))
          fun bs a => bs = [] ∧ a = (place.1, place.2 + d) := .pure _
      refine .ite (fun hone => ?_) fun hone => .ite (fun htwo => ?_) fun htwo => ?_
      · rw [hone]
        exact shortly_displaced_parses hsum
      · have hfull := displaced_parses hsum .dword
        simp only [Width.truncate_dword] at hfull
        rw [htwo]
        exact hfull
      · rw [((mode_cases hb).resolve_right fun h => h.elim hone htwo)]
        exact undisplaced_parses hsum
    refine .ite (fun hscaled => ?_) fun hbase => .view (fun _ _ => rfl) ?_
    · refine ((scaledBase_parses b.mode).bind hj).congr fun bs a => ?_
      rw [AddressCode.exists_fits_iff_scaled (by rw [hscaled]; rfl)]
      simp only [AddressCode.form, AddressCode.address, AddressForm.offset_eq, Width.truncate_dword]
      have hnil (x : Dword) : x + BitVec.ofInt 32 (signedLittleEndian []) = x := BitVec.add_zero x
      -- The displacement stands in the place of the base, or behind it.
      by_cases hzero : b.mode = 0
      · have hnone : AddressForm.displacementBytes .dword b.mode = 0 := by rw [hzero]; rfl
        simp only [if_pos hzero, hnone, List.length_eq_zero_iff]
        constructor
        · rintro ⟨_, _, _, ⟨scale, d, rfl, hd, rfl⟩, ⟨rfl, rfl⟩, rfl⟩
          exact ⟨scale, d, List.append_nil _, hd, by rw [hnil]⟩
        · rintro ⟨scale, d, rfl, hd, rfl⟩
          exact ⟨scale :: d, _, [], ⟨scale, d, rfl, hd, rfl⟩, ⟨rfl, by rw [hnil]⟩,
            (List.append_nil _).symm⟩
      · have hbytes (scale : Byte) : (AddressForm.ofScale b.mode scale).displacement
            = AddressForm.displacementBytes .dword b.mode :=
          congrArg AddressForm.displacement (if_neg fun h => hzero h.1)
        simp only [if_neg hzero, hbytes, List.length_eq_zero_iff]
        constructor
        · rintro ⟨_, _, d, ⟨scale, _, rfl, rfl, rfl⟩, ⟨hd, rfl⟩, rfl⟩
          exact ⟨scale, d, rfl, hd, by rw [hnil]⟩
        · rintro ⟨scale, d, rfl, hd, rfl⟩
          exact ⟨[scale], _, d, ⟨scale, [], rfl, rfl, rfl⟩, ⟨hd, by rw [hnil]⟩, rfl⟩
    · have hregister : ¬(b.mode = 0 ∧ b.rm = 5) := by simpa using hregisters
      have hform : AddressForm.ofBase b.mode b.rm
          = ⟨some (Reg.ofBits b.rm), none, 0, AddressForm.displacementBytes .dword b.mode⟩ :=
        if_neg hregister
      refine (hj (baseSegment (Reg.ofBits b.rm), s.reg .dword (Reg.ofBits b.rm))).congr
        fun bs a => ?_
      rw [AddressCode.exists_fits_iff (by simpa using hbase), baseSegment_eq hregister]
      simp only [AddressCode.form, AddressCode.address, hform, AddressForm.offset_eq,
        AddressForm.registers_eq, AddressForm.ofInt_part, AddressForm.ofInt_part_none,
        Width.truncate_dword]
      rw [BitVec.zero_shiftLeft, BitVec.add_zero]

/-- The operand of a mode byte is taken from the code as its form says. -/
theorem operand_parses (p : Prefixes) (hb : b.mode ≠ 3) :
    Parses s (operand p b : Exec H Operand) fun bs place =>
      ∃ c : AddressCode, c.Fits (p.addressWidth s) b ∧ bs = c.bytes ∧
        place = .memory (p.dataSegment (c.address (p.addressWidth s) b s).1)
          (c.address (p.addressWidth s) b s).2 := by
  have hmemory : b.isRegister = false := beq_eq_false_iff_ne.2 hb
  unfold operand
  rw [hmemory, if_neg Bool.false_ne_true]
  extract_lets join
  have hj (place : Seg × Dword) : Parses s (join place : Exec H Operand) fun bs a =>
      bs = [] ∧ a = .memory (p.dataSegment place.1) place.2 := .pure _
  have hcode {w : Width} {x : Exec H (Seg × Dword)}
      (hx : Parses s x fun bs a =>
        ∃ c : AddressCode, c.Fits w b ∧ bs = c.bytes ∧ a = c.address w b s) :
      Parses s (x >>= join) fun bs place => ∃ c : AddressCode, c.Fits w b ∧ bs = c.bytes ∧
        place = .memory (p.dataSegment (c.address w b s).1) (c.address w b s).2 := by
    refine (hx.bind_value hj).congr fun bs place => ?_
    constructor
    · rintro ⟨_, ⟨c, hfits, rfl, rfl⟩, rfl⟩
      exact ⟨c, hfits, rfl, rfl⟩
    · rintro ⟨c, hfits, rfl, rfl⟩
      exact ⟨_, ⟨c, hfits, rfl, rfl⟩, rfl⟩
  refine .view (fun _ _ => rfl) (.ite (fun hwide => ?_) fun hwide => ?_)
  · rw [Prefixes.addressWidth, if_pos hwide]
    exact hcode (address32_parses_code hb)
  · rw [Prefixes.addressWidth, if_neg hwide]
    exact hcode (address16_parses_code hb)

end Exec

/-- The operand of a mode byte in memory is taken from the code just when the code holds the scale
byte and the displacement that the tables call for.  Its offset is the sum of base, scaled index and
displacement modulo the width of addresses.  Its segment is the one that a marker names, or else
the one of the base. -/
theorem Machine.operand_run_eq_ok_iff {H : Type} [Host H] (p : Prefixes) {b : ModeByte}
    (hb : b.mode ≠ 3) {m m' : Machine H} {place : Operand} :
    (operand p b).run m = .ok place m' ↔
      ∃ c : AddressCode, c.Fits (p.addressWidth m.toProcessor) b ∧ m.HoldsCode m.eip c.bytes ∧
        place = .memory (p.segment.getD (c.form (p.addressWidth m.toProcessor) b).segment)
          ((c.form (p.addressWidth m.toProcessor) b).offset (p.addressWidth m.toProcessor)
            m.toProcessor (signedLittleEndian c.displacement)) ∧
        m' = m.past c.bytes := by
  rw [operand_parses p hb m m.hasState_self]
  constructor
  · rintro ⟨_, ⟨c, hfits, rfl, hplace⟩, hcode, hm'⟩
    exact ⟨c, hfits, hcode, hplace, hm'⟩
  · rintro ⟨c, hfits, hcode, hplace, hm'⟩
    exact ⟨_, ⟨c, hfits, rfl, hplace⟩, hcode, hm'⟩

/-- A machine with 32-bit code that holds the address below `EBP` at four times `EAX`. -/
def Machine.takingAddress : Machine Ram :=
  let m := Machine.initial ⟨⟨#[0x85, 0xFC, 0, 0, 0, 0, 0, 0]⟩, none, 0, #[]⟩ {}
  { m with
    regs := ((m.setReg .dword Reg.ebp 0x1000).setReg .dword Reg.eax 3).regs
    eip := 0
    segs := { Segments.initial with cs := { SegmentCache.realMode 0 false with is32 := true } } }

/-- The address is in the stack segment. -/
theorem Machine.operand_run_eq_ok_iff_takingAddress :
    (operand { start := 0 } ⟨1, 0, 4⟩).run takingAddress
      = .ok (.memory .ss 0x1008) { takingAddress with eip := 2 } := by
  refine (operand_run_eq_ok_iff _ (by decide)).2 ⟨⟨some 0x85, [0xFC]⟩, ⟨?_, ?_⟩, ?_, ?_, rfl⟩
  · decide +kernel
  · decide +kernel
  · exact ⟨by decide +kernel, by decide +kernel, trivial⟩
  · decide +kernel

end Ia32
