import Ia32.Proofs.IntegralValues
import Ia32.Proofs.PackedDecimals
import Ia32.Proofs.RaisedExceptions
import Ia32.Proofs.StackFaults

/-!
# Stores of integers

A store rounds the top register to an integer.  If the destination can hold that integer, it
is written, and a number that was no integer before is reported as inexact.  If not, and for
numbers that are not finite, the bytes that stand for no number are written and
an invalid operation is reported (`FloatInstruction.WritesInteger`).

The binary formats look at the range first.  The packed decimal reports that a finite number is
inexact before it looks at the range, so that both exceptions can come together
there.
-/

namespace Ia32

open Host Exec

variable {H : Type} {c : Config} {f g : Fpu} {p : Prefixes}

/-! ## Numbers -/

namespace Extended

variable {x : Extended} {mode : Rounding}

/-- The value is an integer. -/
def IsIntegral (x : Extended) : Prop := ∃ n : ℤ, x.toRat = n

instance (x : Extended) : Decidable x.IsIntegral :=
  decidable_of_iff (x.toRat.den = 1)
    ⟨fun h => ⟨x.toRat.num, (Rat.coe_int_num_of_den_eq_one h).symm⟩,
      fun ⟨n, h⟩ => h ▸ Rat.den_intCast n⟩

/-- The exception of rounding a number to an integer. -/
def inexactException (x : Extended) : Word := if x.IsIntegral then 0 else Exception.precision

theorem inexactException_eq (mode : Rounding) (hx : x.IsFinite) :
    x.inexactException = if (x.roundToIntegral mode).2 then Exception.precision else 0 := by
  obtain ⟨-, -, -, hflag⟩ := roundToIntegral_spec mode hx
  by_cases hint : x.IsIntegral
  · rw [inexactException, if_pos hint, if_neg (hflag.not.2 (not_not.2 hint))]
  · rw [inexactException, if_neg hint, if_pos (hflag.2 hint)]

theorem isFinite_iff_not (x : Extended) : x.IsFinite ↔ ¬(x.isNan || x.isInfinite) = true := by
  rw [isFinite_iff, Bool.or_eq_true, not_or, Bool.not_eq_true, Bool.not_eq_true]

/-- A number that is not finite is rounded to no integer. -/
theorem toInt?_of_not_isFinite (mode : Rounding) (hx : ¬x.IsFinite) :
    x.toInt? mode = (none, false) := by
  rw [IsFinite, not_or] at hx
  rw [toInt?, if_neg hx.1, if_neg hx.2]

/-- An integer that is told is the one that the number is rounded to. -/
theorem toInteger_of_toInt? (hx : x.IsFinite) {n : ℤ} (h : (x.toInt? mode).1 = some n) :
    mode.toInteger x.toRat = n := by
  rw [toInt?_eq mode hx] at h
  dsimp only at h
  split at h
  · exact Option.some.inj h
  · cases h

end Extended

/-! ## Destinations -/

namespace FloatInstruction

/-- Whether an instruction stores an integer. -/
def storesInteger : FloatInstruction → Bool
  | .storeInt _ _ | .storeDecimal => true
  | _ => false

/-- The destination of a store can hold an integer. -/
def HoldsInteger (n : ℤ) : FloatInstruction → Prop
  | .storeInt format _ => format.least ≤ n ∧ n < -format.least
  | .storeDecimal => |n| ≤ 10 ^ 18 - 1
  | _ => False

/-- The number of bytes that a store of an integer writes. -/
def storedBytes : FloatInstruction → Nat
  | .storeInt format _ => format.bytes
  | .storeDecimal => 10
  | _ => 0

/-- Bytes denote an integer in the format of the destination.  A packed decimal has a sign for
zero too. -/
def Denotes (bytes : List Byte) (sign : Bool) (n : ℤ) : FloatInstruction → Prop
  | .storeInt format _ => bytes.length = format.bytes ∧
    (BitVec.ofNat (8 * format.bytes) (littleEndian bytes)).toInt = n
  | .storeDecimal => IsPackedDecimal sign n.natAbs bytes
  | _ => False

/-- What a store of an integer writes for a number, and the exceptions that it raises. -/
inductive WritesInteger (i : FloatInstruction) (mode : Rounding) (x : Extended) :
    List Byte → Word → Prop where
  /-- The destination can hold the integer. -/
  | number {bytes : List Byte} (hx : x.IsFinite) (hn : i.HoldsInteger (mode.toInteger x.toRat))
      (hbytes : i.Denotes bytes x.sign (mode.toInteger x.toRat)) :
      WritesInteger i mode x bytes x.inexactException
  /-- The destination cannot hold the integer. -/
  | outOfRange {bytes : List Byte} (hx : x.IsFinite)
      (hn : ¬i.HoldsInteger (mode.toInteger x.toRat)) (hbytes : i.indefinite? = some bytes) :
      WritesInteger i mode x bytes
        ((if i = .storeDecimal then x.inexactException else 0) ||| Exception.invalid)
  /-- There is no integer. -/
  | none {bytes : List Byte} (hx : ¬x.IsFinite) (hbytes : i.indefinite? = some bytes) :
      WritesInteger i mode x bytes Exception.invalid

variable {i : FloatInstruction} {bytes : List Byte} {bits : Word}

theorem isSome_indefinite? (hi : i.storesInteger = true) : i.indefinite?.isSome = true := by
  cases i with
  | storeInt | storeDecimal => rfl
  | _ => cases hi

theorem length_of_indefinite? (hi : i.storesInteger = true) (h : i.indefinite? = some bytes) :
    bytes.length = i.storedBytes := by
  cases i with
  | storeInt format pops => cases h; cases format <;> rfl
  | storeDecimal => cases h; rfl
  | _ => cases hi

theorem Denotes.length {sign : Bool} {n : ℤ} (h : i.Denotes bytes sign n) :
    bytes.length = i.storedBytes := by
  cases i with
  | storeInt format pops => exact h.1
  | storeDecimal => exact IsPackedDecimal.length h
  | _ => cases h

theorem WritesInteger.length {mode : Rounding} {x : Extended} (hi : i.storesInteger = true)
    (h : i.WritesInteger mode x bytes bits) : bytes.length = i.storedBytes := by
  cases h with
  | number _ _ hbytes => exact hbytes.length
  | outOfRange _ _ hbytes => exact length_of_indefinite? hi hbytes
  | none _ hbytes => exact length_of_indefinite? hi hbytes

end FloatInstruction

/-! ## Bytes -/

namespace IntFormat

variable {format : IntFormat} {n : ℤ}

theorem fits_iff : format.fits n = true ↔ format.least ≤ n ∧ n < -format.least := by
  rw [fits, Bool.and_eq_true, decide_eq_true_iff, decide_eq_true_iff]

/-- An integer that fits the format is read back from its bytes. -/
theorem denotes_bytesOf (pops : Bool) (sign : Bool) (h : format.fits n = true) :
    (FloatInstruction.storeInt format pops).Denotes
      (bytesOf format.bytes (BitVec.ofInt (8 * format.bytes) n).toNat) sign n := by
  obtain ⟨hlow, hhigh⟩ := fits_iff.1 h
  refine ⟨length_bytesOf _ _, ?_⟩
  rw [ofNat_littleEndian_bytesOf]
  rw [least_eq] at hlow hhigh
  have hpos : 0 < 8 * format.bytes := by have := format.bytes_le; omega
  exact BitVec.toInt_ofInt_eq_self hpos hlow (by omega)

theorem abs_lt_of_fits (h : format.fits n = true) : |n| < 2 ^ 64 := by
  obtain ⟨hlow, hhigh⟩ := fits_iff.1 h
  have hle : (2 : ℤ) ^ (8 * format.bytes - 1) ≤ 2 ^ 63 :=
    pow_le_pow_right₀ (by norm_num) (by have := format.bytes_le; omega)
  rw [least_eq] at hlow hhigh
  rw [abs_lt]
  omega

end IntFormat

namespace FloatExec

open FloatInstruction

variable {x : Extended} {i : FloatInstruction}

/-! ### Binary formats -/

theorem roundToFormat_raises {format : IntFormat} (hx : x.IsFinite)
    (hn : format.fits (f.rounding.toInteger x.toRat) = true) :
    Raises (roundToFormat p format x : FloatExec H Int) c f x.inexactException
      fun n g => n = f.rounding.toInteger x.toRat ∧ f.SameStack g := by
  refine .view ?_
  rw [x.inexactException_eq f.rounding hx, Extended.toInt?_eq f.rounding hx,
    if_pos (IntFormat.abs_lt_of_fits hn)]
  dsimp only
  rw [hn, if_pos rfl]
  exact Raises.raiseLastWhen .raiseAfter_precision fun g hg => .pure ⟨rfl, hg⟩

theorem roundToFormat_raises_invalid {format : IntFormat}
    (h : x.IsFinite → ¬format.fits (f.rounding.toInteger x.toRat) = true) :
    Raises (roundToFormat p format x : FloatExec H Int) c f Exception.invalid
      fun n g => n = format.least ∧ f.SameStack g := by
  have hinvalid : Raises (raise p Exception.invalid >>= fun _ => pure format.least :
      FloatExec H Int) c f Exception.invalid fun n g => n = format.least ∧ f.SameStack g :=
    (Raises.raise (by decide)).last fun _ g hg => .pure ⟨rfl, hg⟩
  refine .view ?_
  by_cases hx : x.IsFinite
  · rw [Extended.toInt?_eq f.rounding hx]
    -- An integer too large for any format is not told at all.
    by_cases hlt : |f.rounding.toInteger x.toRat| < 2 ^ 64
    · rw [if_pos hlt]
      dsimp only
      rw [if_neg (h hx)]
      exact hinvalid
    · rw [if_neg hlt]
      exact hinvalid
  · rw [Extended.toInt?_of_not_isFinite f.rounding hx]
    exact hinvalid

theorem storeInt_raises {format : IntFormat} {pops : Bool} (hfull : f.tag 0 ≠ .empty) :
    ∃ bytes bits, (FloatInstruction.storeInt format pops).WritesInteger f.rounding (f.value 0)
        bytes bits ∧
      Raises (bytesToStore p (.storeInt format pops) : FloatExec H (List Byte)) c f bits
        fun stored g => stored = bytes ∧ f.SameStack g := by
  have hwrite {bits : Word} {n : ℤ} (hround : Raises
      (roundToFormat p format (f.value 0) : FloatExec H Int) c f bits
        fun k g => k = n ∧ f.SameStack g) :
      Raises (bytesToStore p (.storeInt format pops) : FloatExec H (List Byte)) c f bits
        fun stored g => stored = bytesOf format.bytes (BitVec.ofInt (8 * format.bytes) n).toNat ∧
          f.SameStack g := by
    refine Raises.requireFull hfull (.view (hround.last ?_))
    rintro _ g ⟨rfl, hg⟩
    exact .pure ⟨rfl, hg⟩
  have hnone : (FloatInstruction.storeInt format pops).indefinite? =
      some (bytesOf format.bytes (BitVec.ofInt (8 * format.bytes) format.least).toNat) :=
    congrArg some (bytesOf_least format).symm
  by_cases hx : (f.value 0).IsFinite
  · by_cases hn : format.fits (f.rounding.toInteger (f.value 0).toRat) = true
    · refine ⟨_, _, .number hx (IntFormat.fits_iff.1 hn) ?_, hwrite (roundToFormat_raises hx hn)⟩
      exact IntFormat.denotes_bytesOf pops _ hn
    · have hout := IntFormat.fits_iff.not.1 hn
      have hbits : (if FloatInstruction.storeInt format pops = .storeDecimal then
          (f.value 0).inexactException else 0) ||| Exception.invalid = Exception.invalid := by
        rw [if_neg (by nofun)]
        exact BitVec.zero_or
      refine ⟨_, _, .outOfRange hx hout hnone, ?_⟩
      rw [hbits]
      exact hwrite (roundToFormat_raises_invalid fun _ => hn)
  · refine ⟨_, _, .none hx hnone, hwrite (roundToFormat_raises_invalid fun h => absurd h hx)⟩

/-! ### Packed decimals -/

theorem natAbs_lt_iff (n : ℤ) : n.natAbs < Nat.pow 10 (2 * decimalBytes) ↔ |n| ≤ 10 ^ 18 - 1 := by
  have hpow : Nat.pow 10 (2 * decimalBytes) = 10 ^ 18 := rfl
  rw [hpow, Int.abs_eq_natAbs]
  omega

theorem raise_invalid_decimal {g : Fpu} (hg : f.SameStack g) :
    Raises (raise p Exception.invalid >>= fun _ => pure indefiniteDecimal : FloatExec H (List Byte))
      c g Exception.invalid fun stored g => stored = indefiniteDecimal ∧ f.SameStack g :=
  (Raises.raise (by decide)).last fun _ _ hg' => .pure ⟨rfl, hg.trans hg'⟩

theorem roundToDecimal_raises (hx : x.IsFinite)
    (hn : |f.rounding.toInteger x.toRat| ≤ 10 ^ 18 - 1) :
    Raises (roundToDecimal p x : FloatExec H (List Byte)) c f x.inexactException
      fun stored g =>
        stored = packedDecimal x.sign (f.rounding.toInteger x.toRat).natAbs ∧ f.SameStack g := by
  unfold roundToDecimal
  rw [if_neg (x.isFinite_iff_not.1 hx), x.inexactException_eq f.rounding hx]
  refine .view ?_
  rw [Extended.toInt?_eq f.rounding hx, if_pos (by omega)]
  refine Raises.raiseLastWhen .raiseAfter_precision fun g hg => ?_
  dsimp only
  rw [if_pos ((natAbs_lt_iff _).2 hn)]
  exact .pure ⟨rfl, hg⟩

/-- The precision comes before the range. -/
theorem roundToDecimal_raises_both (hx : x.IsFinite)
    (hn : ¬|f.rounding.toInteger x.toRat| ≤ 10 ^ 18 - 1) :
    Raises (roundToDecimal p x : FloatExec H (List Byte)) c f
      (x.inexactException ||| Exception.invalid)
      fun stored g => stored = indefiniteDecimal ∧ f.SameStack g := by
  unfold roundToDecimal
  rw [if_neg (x.isFinite_iff_not.1 hx), x.inexactException_eq f.rounding hx]
  refine .view ?_
  rw [Extended.toInt?_eq f.rounding hx]
  refine Raises.raiseWhen .raiseAfter_precision fun g hg => ?_
  dsimp only
  by_cases hlt : |f.rounding.toInteger x.toRat| < 2 ^ 64
  · rw [if_pos hlt]
    dsimp only
    rw [if_neg ((natAbs_lt_iff _).not.2 hn)]
    exact raise_invalid_decimal hg
  · rw [if_neg hlt]
    exact raise_invalid_decimal hg

theorem roundToDecimal_raises_invalid (hx : ¬x.IsFinite) :
    Raises (roundToDecimal p x : FloatExec H (List Byte)) c f Exception.invalid
      fun stored g => stored = indefiniteDecimal ∧ f.SameStack g := by
  unfold roundToDecimal
  rw [if_pos (not_not.1 (x.isFinite_iff_not.not.1 hx))]
  exact raise_invalid_decimal (.refl f)

theorem storeDecimal_raises (hfull : f.tag 0 ≠ .empty) :
    ∃ bytes bits, FloatInstruction.storeDecimal.WritesInteger f.rounding (f.value 0) bytes bits ∧
      Raises (bytesToStore p .storeDecimal : FloatExec H (List Byte)) c f bits
        fun stored g => stored = bytes ∧ f.SameStack g := by
  by_cases hx : (f.value 0).IsFinite
  · by_cases hn : |f.rounding.toInteger (f.value 0).toRat| ≤ 10 ^ 18 - 1
    · refine ⟨_, _, .number hx hn (isPackedDecimal_packedDecimal _ ((natAbs_lt_iff _).2 hn)), ?_⟩
      exact Raises.requireFull hfull (.view (roundToDecimal_raises hx hn))
    · refine ⟨_, _, .outOfRange hx hn rfl, ?_⟩
      rw [if_pos rfl]
      exact Raises.requireFull hfull (.view (roundToDecimal_raises_both hx hn))
  · exact ⟨_, _, .none hx rfl,
      Raises.requireFull hfull (.view (roundToDecimal_raises_invalid hx))⟩

/-- A store of an integer computes its bytes and raises its exceptions. -/
theorem bytesToStore_raises (hi : i.storesInteger = true) (hfull : f.tag 0 ≠ .empty) :
    ∃ bytes bits, i.WritesInteger f.rounding (f.st 0) bytes bits ∧
      Raises (bytesToStore p i : FloatExec H (List Byte)) c f bits
        fun stored g => stored = bytes ∧ f.SameStack g := by
  have hvalue : f.value 0 = f.st 0 := if_neg hfull
  rw [← hvalue]
  cases i with
  | storeInt format pops => exact storeInt_raises hfull
  | storeDecimal => exact storeDecimal_raises hfull
  | _ => cases hi

end FloatExec

/-! ## Places to write -/

namespace Machine

/-- So many bytes can be written at a place. -/
structure Writable [Host H] (m : Machine H) (seg : Seg) (offset : Dword) (n : Nat) : Prop where
  granted : (m.segs.get seg).Grants m.toProcessor .write offset n
  accepted : ∀ bytes : List Byte, bytes.length = n →
    ¬Refuses m.host ((m.segs.get seg).base + offset) bytes

variable {code : Array UInt8} {offset : Dword} {n : Nat}

theorem linear_running : ((running code f).segs.get .ds).base + offset = offset :=
  BitVec.zero_add offset

theorem within_running (hsize : code.size ≤ 2 ^ 16) (hn : offset.toNat + n ≤ code.size) :
    Within (fun a => a.toNat < (running code f).host.bytes.size)
      (((running code f).segs.get .ds).base + offset) n := by
  intro i hi
  rw [linear_running]
  show (offset + BitVec.ofNat 32 i).toNat < code.size
  rw [BitVec.toNat_add, BitVec.toNat_ofNat]
  omega

/-- A running machine can write where its code lies. -/
theorem writable_running (hsize : code.size ≤ 2 ^ 16) (hn : offset.toNat + n ≤ code.size) :
    (running code f).Writable .ds offset n where
  granted := by
    refine ⟨fun _ => ⟨rfl, rfl⟩, ?_⟩
    have hlast : ((running code f).segs.get .ds).lastByte.toNat = 0xFFFF := rfl
    have hfirst : ((running code f).segs.get .ds).firstByte.toNat = 0 := rfl
    rw [SegmentCache.contains, hlast, hfirst, Bool.and_eq_true, decide_eq_true_iff,
      decide_eq_true_iff]
    omega
  accepted bytes hlength :=
    not_refuses_of_backs (Ram.backs rfl) (hlength ▸ within_running hsize hn)

/-- It reads back what it wrote there. -/
theorem hostBytes_running {bytes : List Byte} (hsize : code.size ≤ 2 ^ 16)
    (hlength : bytes.length = n) (hn : offset.toNat + n ≤ code.size) :
    hostBytes (storeAll (running code f).host (((running code f).segs.get .ds).base + offset) bytes)
      offset n = .ok bytes := by
  have hin := within_running (f := f) hsize (hlength.symm ▸ hn)
  rw [linear_running] at hin ⊢
  rw [← hlength]
  exact hostBytes_storeAll (Ram.backs rfl) hin (by omega)

end Machine

/-! ## Steps -/

section Steps

variable [Host H] {m : Machine H} {start : FloatStart} {seg : Seg} {offset : Dword}
  {bytes : List Byte} {bits : Word}

/-- A step that stores bytes, unless an exception stops it. -/
theorem Machine.Ready.step_of_stored (h : m.Ready start)
    (hplace : start.operand = .place seg offset)
    (hi : start.instruction.indefinite?.isSome) (hw : m.Writable seg offset bytes.length)
    (hx : (FloatExec.bytesToStore start.markers start.instruction : FloatExec H _).Raises m.config
      m.fpu.readied bits fun stored g => stored = bytes ∧ m.fpu.readied.SameStack g) :
    m.step.1 = .completed ∧
      ((m.fpu.Survives bits m.step.2.fpu ∧
          (m.fpu.poppedIf start.instruction.popsStored).SameStack m.step.2.fpu ∧
          m.step.2.host = storeAll m.host ((m.segs.get seg).base + offset) bytes) ∨
        (m.fpu.StoppedBy bits m.step.2.fpu ∧ m.step.2.host = m.host)) := by
  obtain ⟨none, hnone⟩ := Option.isSome_iff_exists.1 hi
  obtain ⟨eip, log, hstep⟩ := h.exists_step
  obtain ⟨a?, f, host, log', hrun, hend⟩ := FloatStart.run_of_stored
    (m := { m with eip := eip, log := log, fpu := m.fpu.readied }) hnone hplace hx
    fun stored f hok => by
      obtain ⟨-, rfl, -⟩ := hok
      exact ⟨⟨hw.granted.rights, hw.granted.bounds⟩, hw.accepted _ rfl⟩
  obtain ⟨offset', selector, opcode, hs⟩ := hstep _ _ hrun
  rw [hs]
  refine ⟨rfl, hend.imp ?_ ?_⟩
  · rintro ⟨stored, f₁, ⟨hsurvives, rfl, hstack⟩, rfl, rfl⟩
    -- A pop concerns neither the control word nor the status word.
    have hpopped : m.fpu.readied.Survives bits (f₁.poppedIf start.instruction.popsStored) := by
      cases start.instruction.popsStored <;>
        exact ⟨hsurvives.masked, hsurvives.pending, hsurvives.exceptions⟩
    have hsame := (m.fpu.sameStack_readied.trans hstack).poppedIf start.instruction.popsStored
    exact ⟨hpopped.of_readied offset' selector opcode, hsame.remembering _ _ _, rfl⟩
  · rintro ⟨hstopped, rfl⟩
    exact ⟨hstopped.of_readied offset' selector opcode, rfl⟩

/-- A step that stores an integer, unless an exception stops it. -/
theorem Machine.Ready.step_of_integer (h : m.Ready start)
    (hi : start.instruction.storesInteger = true) (hplace : start.operand = .place seg offset)
    (hw : m.Writable seg offset start.instruction.storedBytes) (hfull : m.fpu.tag 0 ≠ .empty) :
    m.step.1 = .completed ∧ ∃ bytes bits,
      start.instruction.WritesInteger m.fpu.rounding (m.fpu.st 0) bytes bits ∧
      ((m.fpu.Survives bits m.step.2.fpu ∧
          (m.fpu.poppedIf start.instruction.popsStored).SameStack m.step.2.fpu ∧
          m.step.2.host = storeAll m.host ((m.segs.get seg).base + offset) bytes) ∨
        (m.fpu.StoppedBy bits m.step.2.fpu ∧ m.step.2.host = m.host)) := by
  obtain ⟨bytes, bits, hwrites, hraises⟩ := FloatExec.bytesToStore_raises (H := H)
    (p := start.markers) (c := m.config) (f := m.fpu.readied) hi hfull
  rw [← hwrites.length hi] at hw
  have hsome := FloatInstruction.isSome_indefinite? hi
  obtain ⟨hcompleted, hend⟩ := h.step_of_stored hplace hsome hw hraises
  exact ⟨hcompleted, bytes, bits, hwrites, hend⟩

/-- A store of an integer, with all exceptions masked.  It writes the integer that the top register
is rounded to, or what stands for no number, and reports what there is to report. -/
theorem Machine.integerStore_step (h : m.Ready start)
    (hi : start.instruction.storesInteger = true) (hplace : start.operand = .place seg offset)
    (hw : m.Writable seg offset start.instruction.storedBytes) (hm : m.fpu.IsMaskingAll)
    (hfull : m.fpu.tag 0 ≠ .empty) :
    m.step.1 = .completed ∧ ∃ bytes raised,
      start.instruction.WritesInteger m.fpu.rounding (m.fpu.st 0) bytes raised ∧
      m.step.2.fpu.status &&& Status.exceptions = (m.fpu.status ||| raised) &&& Status.exceptions ∧
      m.step.2.fpu.isPending = false ∧
      (m.fpu.poppedIf start.instruction.popsStored).SameStack m.step.2.fpu ∧
      m.step.2.host = storeAll m.host ((m.segs.get seg).base + offset) bytes := by
  obtain ⟨hcompleted, bytes, raised, hwrites, ⟨hsurvives, hstack, hhost⟩ | ⟨hstopped, -⟩⟩ :=
    h.step_of_integer hi hplace hw hfull
  · exact ⟨hcompleted, bytes, raised, hwrites, hsurvives.exceptions,
      hsurvives.pending.trans h.idle, hstack, hhost⟩
  · exact absurd (hm.unmasked_eq raised) hstopped.unmasked

end Steps

/-- A machine before it stores two and a half as an integer of a word. -/
def Machine.storingHalf : Machine Ram :=
  .running #[0xDF, 0x1E, 0x04, 0x00, 0x00, 0x00]
    (Fpu.initial.store 0 ⟨false, 0x4000, 0xA000000000000000⟩)

/-- The integer is even, the store is inexact, and the register is popped. -/
theorem Machine.integerStore_step_storingHalf :
    storingHalf.step.1 = .completed ∧
      storingHalf.step.2.fpu.status &&& Status.exceptions = Exception.precision ∧
      storingHalf.step.2.fpu.top = 1 ∧
      ∃ bytes, hostBytes storingHalf.step.2.host 4 2 = .ok bytes ∧
        (BitVec.ofNat 16 (littleEndian bytes)).toInt = 2 := by
  have hready : storingHalf.Ready
      ⟨{ start := 0 }, 7, .ofByte 0x1E, .storeInt .word true, .place .ds 4⟩ :=
    ⟨by decide +kernel, rfl, rfl, by decide, by decide⟩
  have hw : storingHalf.Writable .ds 4 2 := writable_running (by decide) (by decide)
  have hx : (storingHalf.fpu.st 0).IsFinite := by decide
  have hn : storingHalf.fpu.rounding.toInteger (storingHalf.fpu.st 0).toRat = 2 :=
    Extended.toInteger_of_toInt? hx (by decide)
  have hinexact : (storingHalf.fpu.st 0).inexactException = Exception.precision :=
    (Extended.inexactException_eq .nearest hx).trans (by decide)
  obtain ⟨hcompleted, bytes, raised, hwrites, hstatus, -, hstack, hhost⟩ :=
    integerStore_step hready rfl rfl hw rfl (by decide)
  cases hwrites with
  | number _ _ hbytes =>
    rw [hn] at hbytes
    rw [hinexact] at hstatus
    obtain ⟨hlength, hread⟩ : bytes.length = 2 ∧ (BitVec.ofNat 16 (littleEndian bytes)).toInt = 2 :=
      hbytes
    refine ⟨hcompleted, hstatus, hstack.top, bytes, ?_, hread⟩
    rw [hhost]
    exact hostBytes_running (by decide) hlength (by decide)
  | outOfRange _ hout _ =>
    rw [hn] at hout
    exact absurd (by constructor <;> decide) hout
  | none hnot _ => exact absurd hx hnot

/-- A machine before it stores more than eighteen digits as a packed decimal. -/
def Machine.storingNineteen : Machine Ram :=
  .running #[0xDF, 0x36, 0x04, 0x00, 0, 0, 0, 0, 0, 0, 0, 0, 0, 0]
    (Fpu.initial.store 0 ⟨false, 0x403A, 0xDE0B6B3A76400008⟩)

/-- It reports an invalid operation, and that the number is inexact too. -/
theorem Machine.precision_of_storingNineteen :
    storingNineteen.floatStart? =
        some ⟨{ start := 0 }, 7, .ofByte 0x36, .storeDecimal, .place .ds 4⟩ ∧
      storingNineteen.fpu.tag 0 ≠ .empty ∧ storingNineteen.fpu.IsMaskingAll ∧
      storingNineteen.fpu.status = 0 ∧ (storingNineteen.fpu.st 0).IsFinite ∧
      ¬|storingNineteen.fpu.rounding.toInteger (storingNineteen.fpu.st 0).toRat| ≤ 10 ^ 18 - 1 ∧
      storingNineteen.step.1 = .completed ∧
      storingNineteen.step.2.fpu.status &&& Status.exceptions =
        Exception.invalid ||| Exception.precision ∧
      hostBytes storingNineteen.step.2.host 4 10 = .ok FloatExec.indefiniteDecimal := by
  have hx : (storingNineteen.fpu.st 0).IsFinite := by decide
  have hn : storingNineteen.fpu.rounding.toInteger (storingNineteen.fpu.st 0).toRat = 10 ^ 18 :=
    Extended.toInteger_of_toInt? hx (by decide)
  refine ⟨by decide +kernel, by decide, rfl, rfl, hx, ?_, ?_⟩
  · rw [hn]
    decide
  · decide +kernel

section Steps

variable [Host H] {m : Machine H} {start : FloatStart} {seg : Seg} {offset : Dword}

/-- A store of a packed decimal, with all exceptions masked.  When the top register is rounded to
an integer of at most eighteen digits, these are its digits, with the sign of the register, which
is popped. -/
theorem Machine.decimalStore_step (h : m.Ready start) (hi : start.instruction = .storeDecimal)
    (hplace : start.operand = .place seg offset) (hw : m.Writable seg offset 10)
    (hm : m.fpu.IsMaskingAll) (hfull : m.fpu.tag 0 ≠ .empty) (hx : (m.fpu.st 0).IsFinite)
    (hn : |m.fpu.rounding.toInteger (m.fpu.st 0).toRat| ≤ 10 ^ 18 - 1) :
    m.step.1 = .completed ∧
      (∃ bytes, IsPackedDecimal (m.fpu.st 0).sign
          (m.fpu.rounding.toInteger (m.fpu.st 0).toRat).natAbs bytes ∧
        m.step.2.host = storeAll m.host ((m.segs.get seg).base + offset) bytes) ∧
      m.fpu.pop.SameStack m.step.2.fpu := by
  obtain ⟨hcompleted, bytes, raised, hwrites, ⟨-, hstack, hhost⟩ | ⟨hstopped, -⟩⟩ :=
    h.step_of_integer (by rw [hi]; rfl) hplace (by rw [hi]; exact hw) hfull
  · rw [hi] at hwrites hstack
    refine ⟨hcompleted, ⟨bytes, ?_, hhost⟩, hstack⟩
    cases hwrites with
    | number _ _ hbytes => exact hbytes
    | outOfRange _ hout _ => exact absurd hn hout
    | none hnot _ => exact absurd hx hnot
  · exact absurd (hm.unmasked_eq raised) hstopped.unmasked

end Steps

/-- A machine before it stores minus a quarter as a packed decimal. -/
def Machine.storingQuarter : Machine Ram :=
  .running #[0xDF, 0x36, 0x04, 0x00, 0, 0, 0, 0, 0, 0, 0, 0, 0, 0]
    (Fpu.initial.store 0 ⟨true, 0x3FFD, Extended.integerBit⟩)

/-- The digits are those of zero, and the sign is kept. -/
theorem Machine.decimalStore_step_storingQuarter :
    storingQuarter.step.1 = .completed ∧ storingQuarter.step.2.fpu.top = 1 ∧
      ∃ bytes, hostBytes storingQuarter.step.2.host 4 10 = .ok bytes ∧
        IsPackedDecimal true 0 bytes := by
  have hready : storingQuarter.Ready
      ⟨{ start := 0 }, 7, .ofByte 0x36, .storeDecimal, .place .ds 4⟩ :=
    ⟨by decide +kernel, rfl, rfl, by decide, by decide⟩
  have hw : storingQuarter.Writable .ds 4 10 := writable_running (by decide) (by decide)
  have hx : (storingQuarter.fpu.st 0).IsFinite := by decide
  have hn : storingQuarter.fpu.rounding.toInteger (storingQuarter.fpu.st 0).toRat = 0 :=
    Extended.toInteger_of_toInt? hx (by decide)
  obtain ⟨hcompleted, ⟨bytes, hbytes, hhost⟩, hstack⟩ := decimalStore_step hready rfl rfl hw rfl
    (by decide) hx (by rw [hn]; decide)
  rw [hn] at hbytes
  refine ⟨hcompleted, hstack.top, bytes, ?_, hbytes⟩
  rw [hhost]
  exact hostBytes_running (by decide) hbytes.length (by decide)

end Ia32
