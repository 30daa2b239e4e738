import Ia32.Instr.Fpu.Compute
import Ia32.Proofs.FpuStates
import Ia32.Proofs.PartialRemainders

/-!
# The bits of a quotient

The last step of a division leaves the low bits of its quotient in three
conditions.  The quotient of the whole division is what all the steps take
(`CompletesAfter.floor_eq`).  A step whose operands are 66 or more apart in
exponent takes a multiple of eight, which these bits do not tell.  One whose
operands are 64 or 65 apart takes a multiple of two or four, and then the
conditions need not be those of the whole quotient (`quotientBits_iff`,
`not_quotientBits_eq`).
-/

namespace Ia32

/-! ## Condition bits -/

namespace Fpu

/-- The number whose bits are conditions one, three and zero. -/
def quotientBits (f : Fpu) : Nat :=
  (f.status &&& Status.c1 != 0).toNat + 2 * (f.status &&& Status.c3 != 0).toNat +
    4 * (f.status &&& Status.c0 != 0).toNat

/-- A condition is set as it is told. -/
theorem setCondition_status_and_self (f : Fpu) {bits : Word} (hbits : bits ≠ 0) (on : Bool) :
    ((f.setCondition bits on).status &&& bits != 0) = on := by
  cases on with
  | false => rw [clear_status_and BitVec.and_self, bne_self_eq_false]
  | true =>
    refine bne_iff_ne.2 ?_
    change (f.status ||| bits) &&& bits ≠ 0
    rw [BitVec.and_or_distrib_right, BitVec.and_self]
    exact or_ne_zero_right hbits

/-- After the last step of a division the conditions tell the low bits of its quotient. -/
theorem quotientBits_remainderConditions {r : PartialRemainder} (h : r.complete = true) (f : Fpu) :
    (FloatExec.remainderConditions r f).quotientBits = r.quotient % 8 := by
  have h0 := Nat.toNat_testBit r.quotient 0
  have h1 := Nat.toNat_testBit r.quotient 1
  have h2 := Nat.toNat_testBit r.quotient 2
  unfold FloatExec.remainderConditions
  dsimp only
  rw [if_pos h, quotientBits, setCondition_status_and_self _ (by decide),
    setCondition_status_and (by decide), setCondition_status_and (by decide),
    setCondition_status_and_self _ (by decide), setCondition_status_and (by decide),
    setCondition_status_and_self _ (by decide), h0, h1, h2]
  omega

end Fpu

namespace Extended

variable {a b : Extended}

/-! ## The bits of the quotient -/

/-- A step whose operands are far apart takes a multiple of eight. -/
theorem dvd_multipleTaken (h : 66 ≤ gap a b) : 8 ∣ multipleTaken a b := by
  rw [multipleTaken, if_neg (by omega), if_neg (by omega), Nat.shiftLeft_eq]
  exact Dvd.dvd.mul_left (Nat.pow_dvd_pow 2 (show 3 ≤ (gap a b - 63).toNat by omega)) _

/-- A step whose operands are just too far apart is followed by the last one. -/
theorem CompletesAfter.succ_eq (ha : a.IsFinite) (henc : a.HasEncoding)
    (hb : b.isFiniteNonzero = true) {n k : Nat} (h : CompletesAfter a b n) (hk : k < n)
    (hnear : gap (remainderAfter a b k) b < 66) : k + 1 = n := by
  by_contra hne
  have hlt : k + 1 < n := by omega
  have hnext := h.2 (k + 1) hlt
  have hle := (stepAfter_spec ha henc hb (k + 1)).le_gap hnext
  rw [stepAfter, remainderAfter_succ] at hnext
  rw [remainderAfter_succ] at hle
  rcases (stepAfter_spec ha henc hb k).gap_falls (h.2 k hk) with hzero | hfalls
  · exact absurd (complete_of_isZero hzero hb) (Bool.eq_false_iff.1 hnext)
  · unfold gap at *
    omega

/-- The quotient is what all the steps take. -/
theorem CompletesAfter.floor_eq (ha : a.IsFinite) (henc : a.HasEncoding)
    (hb : b.isFiniteNonzero = true) {n : Nat} (h : CompletesAfter a b n) :
    ⌊|a.toRat| / |b.toRat|⌋₊ = totalTaken a b n + (stepAfter a b n).quotient := by
  have hspec := stepAfter_spec ha henc hb n
  have hleft := reduces_remainderAfter ha henc hb (n + 1)
  rw [remainderAfter_succ] at hleft
  rw [hleft.floor_eq (hspec.lt_divisor h.1), hspec.quotient_eq h.1, totalTaken]

theorem CompletesAfter.dvd_totalTaken_iff (ha : a.IsFinite) (henc : a.HasEncoding)
    (hb : b.isFiniteNonzero = true) {n : Nat} (h : CompletesAfter a b n) :
    8 ∣ totalTaken a b n ↔ ∀ k < n, 8 ∣ multipleTaken (remainderAfter a b k) b := by
  have hfar {k : Nat} (hk : k + 1 < n) : 8 ∣ multipleTaken (remainderAfter a b k) b := by
    refine dvd_multipleTaken ?_
    by_contra hnear
    have := h.succ_eq ha henc hb (show k < n by omega) (not_le.1 hnear)
    omega
  have hinit {m : Nat} (hm : m < n) : 8 ∣ totalTaken a b m := by
    induction m with
    | zero => exact dvd_zero 8
    | succ m ih => exact dvd_add (ih (by omega)) (hfar hm)
  cases n with
  | zero => exact iff_of_true (dvd_zero 8) nofun
  | succ m =>
    rw [totalTaken, Nat.dvd_add_right (hinit (Nat.lt_succ_self m))]
    constructor
    · intro hlast k hk
      rcases Nat.lt_succ_iff_lt_or_eq.1 hk with hlt | rfl
      · exact hfar (by omega)
      · exact hlast
    · exact fun hall => hall m (Nat.lt_succ_self m)

/-- The conditions after the last step of a division tell the low bits of the quotient of that step
alone.  They are those of the whole quotient when the earlier steps took multiples of eight, which
only a step with operands just too far apart may fail to do. -/
theorem quotientBits_iff (ha : a.IsFinite) (henc : a.HasEncoding) (hb : b.isFiniteNonzero = true)
    (f : Fpu) :
    ∃ n, CompletesAfter a b n ∧
      (FloatExec.remainderConditions (stepAfter a b n) f).quotientBits =
        (stepAfter a b n).quotient % 8 ∧
      ⌊|a.toRat| / |b.toRat|⌋₊ = totalTaken a b n + (stepAfter a b n).quotient ∧
      ((stepAfter a b n).quotient % 8 = ⌊|a.toRat| / |b.toRat|⌋₊ % 8 ↔
        ∀ k < n, gap (remainderAfter a b k) b < 66 →
          8 ∣ multipleTaken (remainderAfter a b k) b) := by
  obtain ⟨n, hn⟩ := exists_completesAfter ha henc hb
  have hfloor := hn.floor_eq ha henc hb
  refine ⟨n, hn, Fpu.quotientBits_remainderConditions hn.1 f, hfloor, ?_⟩
  have hall : (∀ k < n, gap (remainderAfter a b k) b < 66 →
      8 ∣ multipleTaken (remainderAfter a b k) b) ↔
      ∀ k < n, 8 ∣ multipleTaken (remainderAfter a b k) b := by
    refine forall₂_congr fun k _ => ⟨fun h => ?_, fun h _ => h⟩
    rcases lt_or_ge (gap (remainderAfter a b k) b) 66 with hnear | hfar
    · exact h hnear
    · exact dvd_multipleTaken hfar
  rw [hall, ← hn.dvd_totalTaken_iff ha henc hb, hfloor]
  omega

/-- The operands of the first step are 66 apart in exponent. -/
theorem quotientBits_iff_far :
    let a : Extended := ⟨false, 0x4041, integerBit⟩
    let b : Extended := ⟨false, 0x3FFF, 0xC000000000000000⟩
    a.IsFinite ∧ a.HasEncoding ∧ b.isFiniteNonzero = true ∧
      ∃ n, CompletesAfter a b n ∧
        (FloatExec.remainderConditions (stepAfter a b n) .initial).quotientBits =
          (stepAfter a b n).quotient % 8 ∧
        ⌊|a.toRat| / |b.toRat|⌋₊ = totalTaken a b n + (stepAfter a b n).quotient ∧
        ((stepAfter a b n).quotient % 8 = ⌊|a.toRat| / |b.toRat|⌋₊ % 8 ↔
          ∀ k < n, gap (remainderAfter a b k) b < 66 →
            8 ∣ multipleTaken (remainderAfter a b k) b) :=
  have ha : IsFinite ⟨false, 0x4041, integerBit⟩ := by decide
  have henc : HasEncoding ⟨false, 0x4041, integerBit⟩ := by decide
  have hb : isFiniteNonzero ⟨false, 0x3FFF, 0xC000000000000000⟩ = true := by decide
  ⟨ha, henc, hb, quotientBits_iff ha henc hb .initial⟩

/-- The quotient of `2 ^ 64` by one and a half leaves two when it is divided by eight.  The first
step takes all of it, and the last one tells that it is zero. -/
theorem not_quotientBits_eq :
    let a : Extended := ⟨false, 0x403F, integerBit⟩
    let b : Extended := ⟨false, 0x3FFF, 0xC000000000000000⟩
    a.IsFinite ∧ a.HasEncoding ∧ b.isFiniteNonzero = true ∧ CompletesAfter a b 1 ∧
      (stepAfter a b 1).quotient % 8 ≠ ⌊|a.toRat| / |b.toRat|⌋₊ % 8 ∧
      (FloatExec.remainderConditions (stepAfter a b 1) .initial).quotientBits ≠
        ⌊|a.toRat| / |b.toRat|⌋₊ % 8 := by
  intro a b
  have ha : a.IsFinite := by decide
  have henc : a.HasEncoding := by decide
  have hb : b.isFiniteNonzero = true := by decide
  have hn : CompletesAfter a b 1 := by
    unfold CompletesAfter
    decide
  have hfloor := hn.floor_eq ha henc hb
  have hquotient : (stepAfter a b 1).quotient = 0 := by decide
  have htotal : totalTaken a b 1 = 12297829382473034410 := by decide
  rw [Fpu.quotientBits_remainderConditions hn.1, hfloor, hquotient, htotal]
  exact ⟨ha, henc, hb, hn, by decide, by decide⟩

end Extended

end Ia32
