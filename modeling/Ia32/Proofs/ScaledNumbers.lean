import Ia32.Proofs.FloatStarts
import Ia32.Proofs.IntegralValues

/-!
# Scaled numbers

The scaling instruction multiplies the top register by a power of two, whose
exponent is the register below it, rounded toward zero.  The result is the exact
value, rounded once, unless it vanishes (`Extended.ScalesTo`).

An exponent of `2 ^ 64` or more in magnitude is taken for zero, so that the number
stays what it is where it would overflow or vanish (`Extended.appliedPower`).  Any
other exponent is cut off at a limit, once by the instruction and once more by the
scaling, and this makes no difference to the result.
-/

namespace Ia32

open Host Exec

/-! ## Values -/

namespace Extended

variable {a b : Extended}

/-- The exponent by which a number is scaled: another number, rounded toward zero.  One that is too
large counts as zero. -/
def appliedPower (b : Extended) : ℤ :=
  if |Rounding.toInteger .zero b.toRat| < 2 ^ 64 then Rounding.toInteger .zero b.toRat else 0

/-- A power that is limited once is not limited any more. -/
theorem scaleBy_limitPower (mode : Rounding) (x : Extended) (n : Int) :
    x.scaleBy mode (limitPower n) = x.scaleBy mode n := by
  have htwice : limitPower (limitPower n) = limitPower n := by
    simp only [limitPower, scaleLimit]
    omega
  rw [scaleBy, scaleBy, htwice]

theorem scaleByNumber_eq (mode : Rounding) (ha : a.isFiniteNonzero = true) (hb : b.IsFinite) :
    scaleByNumber mode a b = a.scaleBy mode b.appliedPower := by
  obtain ⟨hna, -, -⟩ := isFiniteNonzero_iff.1 ha
  obtain ⟨hnb, hib⟩ := isFinite_iff.1 hb
  have hnan : firstNan? a b = none := by simp [firstNan?, hna, hnb]
  have hpower : ((b.toInt? .zero).1).getD 0 = b.appliedPower := by
    rw [toInt?_eq _ hb, appliedPower]
    split <;> rfl
  unfold scaleByNumber
  rw [hnan]
  simp only [hib, Bool.false_eq_true, if_false]
  rw [scaleBy_limitPower, hpower]

/-- A result is a number times `2 ^ n`, rounded once, unless it vanishes.  What is moved by more
places than a word has becomes zero or the least number, as the count of these places falls. -/
structure ScalesTo (a : Extended) (mode : Rounding) (n : Int) (r : Rounded) : Prop where
  rounds : ¬(keptScaled mode a n).Overshifts → RoundsUnlessVanishing mode (a.toRat * 2 ^ n) r
  overshifted : (keptScaled mode a n).Overshifts →
    r = ⟨⟨a.sign, 0, if 128 ∣ denormalMove (keptScaled mode a n).place then 1 else 0⟩,
      Exception.precision ||| Exception.underflow⟩

theorem scaleByNumber_scalesTo (mode : Rounding) (ha : a.isFiniteNonzero = true)
    (hb : b.IsFinite) : a.ScalesTo mode b.appliedPower (scaleByNumber mode a b) := by
  rw [scaleByNumber_eq mode ha hb]
  exact ⟨scaleBy_roundsUnlessVanishing ha _, scaleBy_of_overshifts ha _⟩

end Extended

/-- The exceptions of a value that is rounded. -/
theorem RoundsTo.exceptions_mem {f : Format} {mode : Rounding} {x : ℚ} {r : Rounded}
    (h : RoundsTo f mode x r) :
    r.exceptions ∈ [0, Exception.precision, Exception.precision ||| Exception.underflow,
      Exception.overflow ||| Exception.precision] := by
  cases h with
  | inRange =>
    unfold roundingExceptions
    split_ifs <;> simp only [List.mem_cons, true_or, or_true]
  | infinite => simp only [List.mem_cons, true_or, or_true]
  | largest => simp only [List.mem_cons, true_or, or_true]

/-- A value beyond the range raises something. -/
theorem RoundsTo.exceptions_ne_zero {f : Format} {mode : Rounding} {x : ℚ} {r : Rounded}
    (h : RoundsTo f mode x r) (hx : f.bound ≤ |x|) : r.exceptions ≠ 0 := by
  have hover : Exception.overflow ||| Exception.precision ≠ 0 := by decide
  cases h with
  | @inRange y _ rounds bounded =>
    have hinexact : y ≠ x := by
      rintro rfl
      exact not_le.2 bounded hx
    dsimp only
    rw [roundingExceptions, if_neg hinexact]
    split_ifs <;> decide
  | infinite => exact hover
  | largest => exact hover

theorem RoundsUnlessVanishing.exceptions_mem {mode : Rounding} {x : ℚ} {r : Rounded}
    (h : RoundsUnlessVanishing mode x r) :
    r.exceptions ∈ [0, Exception.precision, Exception.precision ||| Exception.underflow,
      Exception.overflow ||| Exception.precision] := by
  by_cases hv : Vanishes mode x
  · rw [h.vanished hv]
    simp only [List.mem_cons, true_or, or_true]
  · exact (h.roundsTo hv).exceptions_mem

theorem Extended.ScalesTo.exceptions_mem {mode : Rounding} {a : Extended} {n : Int} {r : Rounded}
    (h : a.ScalesTo mode n r) :
    r.exceptions ∈ [0, Exception.precision, Exception.precision ||| Exception.underflow,
      Exception.overflow ||| Exception.precision] := by
  by_cases hmove : (keptScaled mode a n).Overshifts
  · rw [h.overshifted hmove]
    simp only [List.mem_cons, true_or, or_true]
  · exact (h.rounds hmove).exceptions_mem

/-! ## Masked exceptions of a result -/

variable {H : Type}

namespace FloatExec

variable {c : Config} {f : Fpu} {p : Prefixes}

/-- Those of some exceptions that are in a list. -/
def raisedAmong (exceptions : Word) : List Word → Word
  | [] => 0
  | bit :: bits =>
    if exceptions &&& bit ≠ 0 then bit ||| raisedAmong exceptions bits
    else raisedAmong exceptions bits

/-- Masked exceptions are recorded, and the register stack stays. -/
theorem raiseEach_leaves (hm : f.IsMaskingAll) (exceptions : Word) (bits : List Word) :
    Leaves (raiseEach p exceptions bits : FloatExec H Unit) c f
      (fun _ f' => f.SameStack f' ∧ f'.status &&& Status.exceptions =
        (f.status ||| raisedAmong exceptions bits) &&& Status.exceptions)
      fun _ => False := by
  induction bits generalizing f with
  | nil =>
    refine .pure ⟨.refl f, ?_⟩
    exact congrArg (· &&& Status.exceptions) BitVec.or_zero.symm
  | cons bit bits ih =>
    unfold raiseEach
    extract_lets rest raised
    refine .ite (fun hin => ?_) fun hout => ?_
    · rw [raisedAmong, if_pos hin]
      -- condition one may be cleared before the exception is recorded
      have hraised : ∀ g, f.SameStack g → g.IsMaskingAll →
          g.status &&& Status.exceptions = f.status &&& Status.exceptions →
          Leaves (raised ()) c g (fun _ f' => f.SameStack f' ∧ f'.status &&& Status.exceptions =
            (f.status ||| (bit ||| raisedAmong exceptions bits)) &&& Status.exceptions)
            fun _ => False := by
        intro g hg hmg hstatus
        refine .bind (.raise (fun _ => ?_) fun hne => absurd (hmg.unmasked_eq bit) hne)
        refine (ih (f := g.setCondition bit true) hmg).mono ?_ fun _ => False.elim
        rintro _ f' ⟨hstack, hrecorded⟩
        refine ⟨(hg.setCondition bit true).trans hstack, hrecorded.trans ?_⟩
        change (g.status ||| bit ||| raisedAmong exceptions bits) &&& Status.exceptions = _
        simp only [BitVec.and_or_distrib_right, hstatus, BitVec.or_assoc]
      refine .ite (fun _ => .bind (.update ?_)) fun _ => hraised f (.refl f) hm rfl
      exact hraised _ (f.sameStack_setCondition _ _) hm
        (Fpu.setCondition_status_and (by decide) false)
    · rw [raisedAmong, if_neg hout]
      exact ih hm

/-- A result with masked exceptions is written, and its exceptions are recorded. -/
theorem storeResult_leaves (hm : f.IsMaskingAll) (i : Nat) {r : Rounded}
    (hr : r.exceptions ∈ [0, Exception.precision, Exception.precision ||| Exception.underflow,
      Exception.overflow ||| Exception.precision]) :
    Leaves (storeResult p i r : FloatExec H Unit) c f
      (fun _ f' => (f.store i r.value).SameStack f' ∧
        f'.status &&& Status.exceptions = (f.status ||| r.exceptions) &&& Status.exceptions)
      fun _ => False := by
  have hall : raisedAmong r.exceptions [Exception.overflow, Exception.underflow, Exception.invalid,
      Exception.zeroDivide, Exception.precision] = r.exceptions := by
    generalize r.exceptions = exceptions at hr
    simp only [List.mem_cons, List.not_mem_nil, or_false] at hr
    rcases hr with rfl | rfl | rfl | rfl <;> decide
  have hraise := raiseEach_leaves (H := H) (p := p) (c := c) (f := f.store i r.value) hm
    r.exceptions [Exception.overflow, Exception.underflow, Exception.invalid, Exception.zeroDivide,
      Exception.precision]
  rw [hall] at hraise
  exact .bind (.update hraise)

theorem requireFull_leaves {ok : Unit → Fpu → Prop} {stop : Fpu → Prop} {i : Nat}
    (hfull : f.tag i ≠ .empty) (h : ok () f) :
    Leaves (requireFull p i : FloatExec H Unit) c f ok stop := by
  refine .view ?_
  rw [if_neg hfull]
  exact .pure h

theorem scale_leaves (hm : f.IsMaskingAll) (h0 : f.tag 0 ≠ .empty) (h1 : f.tag 1 ≠ .empty)
    (ha : (f.st 0).isFiniteNonzero = true) (hb : (f.st 1).IsFinite) :
    Leaves (scale p : FloatExec H Unit) c f
      (fun _ f' => ∃ r, (f.st 0).ScalesTo f.rounding (f.st 1).appliedPower r ∧
        (f.store 0 r.value).SameStack f' ∧
        f'.status &&& Status.exceptions = (f.status ||| r.exceptions) &&& Status.exceptions)
      fun _ => False := by
  have hscales := Extended.scaleByNumber_scalesTo f.rounding ha hb
  refine .bind (requireFull_leaves h0 (.bind (requireFull_leaves h1 (.view (.view (.view ?_))))))
  rw [Fpu.value, if_neg h0, Fpu.value, if_neg h1]
  exact (storeResult_leaves hm 0 hscales.exceptions_mem).mono (fun _ f' h => ⟨_, hscales, h⟩)
    fun _ => False.elim

end FloatExec

/-! ## Steps -/

variable [Host H] {m : Machine H} {start : FloatStart}

/-- What scaling has done: the top register holds the result, its exceptions are recorded, and the
rest of the stack is as before. -/
structure Fpu.Scaled (f f' : Fpu) (r : Rounded) : Prop where
  st_zero : f'.st 0 = r.value
  st_succ : ∀ i < 7, f'.st (i + 1) = f.st (i + 1)
  tag_succ : ∀ i < 7, f'.tag (i + 1) = f.tag (i + 1)
  top : f'.top = f.top
  exceptions : f'.status &&& Status.exceptions = (f.status ||| r.exceptions) &&& Status.exceptions

theorem Fpu.scaled_of_sameStack {f f' : Fpu} {r : Rounded} (h : (f.store 0 r.value).SameStack f')
    (hstatus : f'.status &&& Status.exceptions =
      (f.status ||| r.exceptions) &&& Status.exceptions) : f.Scaled f' r where
  st_zero := (h.st_eq 0).trans (f.st_store_self 0 r.value)
  st_succ i hi :=
    (h.st_eq (i + 1)).trans (st_store_of_ne (physical_ne (by omega) (by omega)) r.value)
  tag_succ i hi :=
    (h.tag_eq (i + 1)).trans (tag_store_of_ne (physical_ne (by omega) (by omega)) r.value)
  top := h.top
  exceptions := hstatus

/-- Scaling a finite number that is not zero by a finite number, with all exceptions masked.  The
top register is multiplied by two to the power of the one below, as far as that is applied, and
rounded once, unless it vanishes.  The one below and the top of the stack stay. -/
theorem Machine.scale_step (h : m.Ready start) (hi : start.instruction = .scale)
    (hm : m.fpu.IsMaskingAll) (h0 : m.fpu.tag 0 ≠ .empty) (h1 : m.fpu.tag 1 ≠ .empty)
    (ha : (m.fpu.st 0).isFiniteNonzero = true) (hb : (m.fpu.st 1).IsFinite) :
    m.step.1 = .completed ∧
      ∃ r, (m.fpu.st 0).ScalesTo m.fpu.rounding (m.fpu.st 1).appliedPower r ∧
        m.fpu.Scaled m.step.2.fpu r := by
  have hleaves : (start.program : FloatExec H Unit).Leaves m.config m.fpu.readied
      (fun _ f' => ∃ r, (m.fpu.st 0).ScalesTo m.fpu.rounding (m.fpu.st 1).appliedPower r ∧
        (m.fpu.readied.store 0 r.value).SameStack f' ∧ f'.status &&& Status.exceptions =
          (m.fpu.readied.status ||| r.exceptions) &&& Status.exceptions) fun _ => False := by
    rw [FloatStart.program, hi]
    exact FloatExec.scale_leaves (f := m.fpu.readied) hm h0 h1 ha hb
  obtain ⟨eip, log, f, offset, selector, opcode, hstep, hend⟩ := h.step_of_leaves hleaves
  rw [or_false] at hend
  obtain ⟨r, hr, hstack, hstatus⟩ := hend
  rw [hstep]
  refine ⟨rfl, r, hr, Fpu.scaled_of_sameStack ?_ ?_⟩
  · have hready : (m.fpu.store 0 r.value).SameStack (m.fpu.readied.store 0 r.value) :=
      ⟨rfl, rfl, rfl, rfl⟩
    exact hready.trans (hstack.remembering offset selector opcode)
  · have hready : m.fpu.readied.status &&& Status.exceptions = m.fpu.status &&& Status.exceptions :=
      Fpu.setCondition_status_and (by decide) false
    refine hstatus.trans ?_
    rw [BitVec.and_or_distrib_right, hready, ← BitVec.and_or_distrib_right]

/-- A machine before it scales one by another number. -/
def Machine.scalingOne (b : Extended) : Machine Ram :=
  .running #[0xD9, 0xFD] ((Fpu.initial.store 0 .one).store 1 b)

/-- An exponent beyond the limit overflows. -/
theorem Machine.scale_step_scalingOne :
    (Extended.ofInt 80000).IsFinite ∧
      (scalingOne (.ofInt 80000)).step.1 = .completed ∧
      (scalingOne (.ofInt 80000)).step.2.fpu.st 0 = .infinity false ∧
      ∃ r, Extended.one.ScalesTo .nearest (Extended.ofInt 80000).appliedPower r ∧
        (scalingOne (.ofInt 80000)).fpu.Scaled (scalingOne (.ofInt 80000)).step.2.fpu r := by
  have hfinite : (Extended.ofInt 80000).IsFinite := .inr (by decide +kernel)
  have hready : (scalingOne (.ofInt 80000)).Ready
      ⟨{ start := 0 }, 1, .ofByte 0xFD, .scale, .none⟩ :=
    ⟨by decide +kernel, rfl, rfl, by decide +kernel, by decide +kernel⟩
  have hone : (scalingOne (.ofInt 80000)).fpu.st 0 = .one := by decide +kernel
  have hpower : (scalingOne (.ofInt 80000)).fpu.st 1 = .ofInt 80000 := by decide +kernel
  have hmode : (scalingOne (.ofInt 80000)).fpu.rounding = .nearest := by decide +kernel
  have hstep := scale_step hready rfl rfl (by decide +kernel) (by decide +kernel)
    (by rw [hone]; decide) (by rw [hpower]; exact hfinite)
  rw [hone, hpower, hmode] at hstep
  exact ⟨hfinite, hstep.1, by decide +kernel, hstep.2⟩

/-- One that is scaled by `2 ^ 64` stays one, where it would overflow. -/
theorem Machine.not_roundsTo_scalingOne :
    let b : Extended := ⟨false, 0x403F, Extended.integerBit⟩
    (scalingOne b).floatStart? = some ⟨{ start := 0 }, 1, .ofByte 0xFD, .scale, .none⟩ ∧
      (scalingOne b).step.1 = .completed ∧ (scalingOne b).step.2.fpu.st 0 = .one ∧
      ¬RoundsTo .extended .nearest (Extended.one.toRat * 2 ^ Rounding.toInteger .zero b.toRat)
        ⟨(scalingOne b).step.2.fpu.st 0,
          (scalingOne b).step.2.fpu.status &&& Status.exceptions⟩ := by
  intro b
  have hstays : (scalingOne b).step.2.fpu.st 0 = .one := by decide +kernel
  have hexceptions : (scalingOne b).step.2.fpu.status &&& Status.exceptions = 0 := by
    decide +kernel
  refine ⟨by decide +kernel, by decide +kernel, hstays, ?_⟩
  rw [hstays, hexceptions]
  have hone : Extended.one.toRat = 1 := by
    have hscale : Extended.one.scale = -63 := by decide
    have hsig : Extended.one.significand.toNat = 2 ^ 63 := by decide
    rw [Extended.toRat, hscale, hsig]
    norm_num [signed, Extended.one]
  have hpower : Rounding.toInteger .zero b.toRat = 2 ^ 64 := by
    have hvalue : b.toRat = ((2 ^ 64 : ℤ) : ℚ) := by
      have hscale : b.scale = 1 := by decide
      have hsig : b.significand.toNat = 2 ^ 63 := by decide
      rw [Extended.toRat, hscale, hsig]
      norm_num [signed, b]
    rw [hvalue, Rounding.toInteger_intCast]
  rw [hone, hpower, one_mul]
  have hlarge : Format.extended.bound ≤ |(2 : ℚ) ^ (2 ^ 64 : ℤ)| := by
    rw [abs_of_pos (Format.two_zpow_pos _)]
    exact zpow_le_zpow_right₀ one_le_two (by decide)
  exact fun h => h.exceptions_ne_zero hlarge rfl

end Ia32
