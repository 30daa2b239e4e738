import Ia32.Proofs.AccumulatorPairs
import Ia32.Proofs.FloatStarts

/-!
# Division of the accumulator pair

The dividend is the accumulator pair, of twice the width.  A division has no
result when the divisor is zero, or when the quotient leaves the width, which it
does for most dividends: among them is the least signed number, divided by minus
one.  Both are one fault, before which no register is written.  Otherwise the
quotient is rounded toward zero, so that what is left over has the sign of the
dividend, and both replace the pair.
-/

namespace Ia32

open Host Exec

variable {w : Width} {pair : Pair} {b : Dword} {reading : Reading}

/-! ## Quotients -/

/-- A division has no result: the divisor is zero, or the quotient leaves the width. -/
def Reading.Fails (w : Width) (pair : Pair) (b : Dword) (reading : Reading) : Prop :=
  reading.value w b = 0 ∨
    ¬reading.Holds w ((reading.pairValue w pair).tdiv (reading.value w b))

/-- The quotient of two numbers, rounded toward zero, and what is left over. -/
structure Division.IsOf (w : Width) (pair : Pair) (b : Dword) (reading : Reading) (d : Division) :
    Prop where
  quotient : reading.value w d.quotient = (reading.pairValue w pair).tdiv (reading.value w b)
  remainder : reading.value w d.remainder = (reading.pairValue w pair).tmod (reading.value w b)

/-- A division has a result when the quotient has. -/
structure Reading.Ends (w : Width) (pair : Pair) (b : Dword) (reading : Reading)
    (result : Except DivisionFailure Division) : Prop where
  failed : reading.Fails w pair b → ∃ failure, result = .error failure
  done : ¬reading.Fails w pair b → ∃ d, result = .ok d ∧ d.IsOf w pair b reading

/-- What is left over is smaller than the divisor. -/
theorem natAbs_tmod_lt (n : Int) {v : Int} (hv : v ≠ 0) : (n.tmod v).natAbs < v.natAbs := by
  rw [Int.natAbs_tmod]
  exact Nat.mod_lt _ (Int.natAbs_pos.2 hv)

/-- What is left over has the sign of the dividend. -/
theorem tmod_eq_zero_or_sign_eq (n v : Int) : n.tmod v = 0 ∨ (n.tmod v).sign = n.sign := by
  rw [Int.sign_tmod, ← Int.sign_eq_zero_iff_zero, Int.sign_tmod]
  split
  · exact .inl rfl
  · exact .inr rfl

namespace Reading

/-- What is left over lies within the width of the divisor. -/
theorem holds_tmod (pair : Pair) (h0 : reading.value w b ≠ 0) :
    reading.Holds w ((reading.pairValue w pair).tmod (reading.value w b)) := by
  have hb := holds_value w b reading
  have hlt := natAbs_tmod_lt (reading.pairValue w pair) h0
  cases reading with
  | unsigned =>
    have hnonneg : 0 ≤ Reading.unsigned.pairValue w pair :=
      Int.add_nonneg (Int.mul_nonneg (Int.natCast_nonneg _) (by positivity)) (Int.natCast_nonneg _)
    have hrest := Int.tmod_nonneg (Reading.unsigned.value w b) hnonneg
    obtain ⟨hb₁, hb₂⟩ := hb
    constructor <;> omega
  | signed =>
    obtain ⟨hb₁, hb₂⟩ := hb
    constructor <;> omega

/-- Both divisions check the divisor and then the quotient. -/
theorem ends_of_checks {zero beyond : Prop} [Decidable zero] [Decidable beyond] {d : Division}
    (hzero : zero ↔ reading.value w b = 0)
    (hbeyond : beyond ↔ ¬reading.Holds w ((reading.pairValue w pair).tdiv (reading.value w b)))
    (hd : ¬zero → ¬beyond → d.IsOf w pair b reading) :
    reading.Ends w pair b (if zero then .error .zeroDivisor
      else if beyond then .error .quotientOverflow else .ok d) := by
  constructor
  · rw [Fails, ← hzero, ← hbeyond]
    rintro (h | h)
    · exact ⟨_, if_pos h⟩
    · by_cases h0 : zero
      · exact ⟨_, if_pos h0⟩
      · rw [if_neg h0]
        exact ⟨_, if_pos h⟩
  · rw [Fails, ← hzero, ← hbeyond, not_or]
    rintro ⟨h0, h⟩
    rw [if_neg h0, if_neg h]
    exact ⟨d, rfl, hd h0 h⟩

theorem divide_unsigned_ends (hp : pair.Fits w) (hb : w.truncate b = b) :
    Reading.unsigned.Ends w pair b (w.divide pair b) := by
  have hvalue : Reading.unsigned.value w b = b.toNat := congrArg (fun x => (x.toNat : Int)) hb
  have hquotient : (Reading.unsigned.pairValue w pair).tdiv (Reading.unsigned.value w b) =
      (w.ofPair pair / b.toNat : Nat) := by
    rw [hvalue, ← hp.ofPair_eq, Int.ofNat_tdiv]
  have hremainder : (Reading.unsigned.pairValue w pair).tmod (Reading.unsigned.value w b) =
      (w.ofPair pair % b.toNat : Nat) := by
    rw [hvalue, ← hp.ofPair_eq, Int.ofNat_tmod]
  have hmask : (w.mask.toNat : Int) + 1 = 2 ^ w.bits := by cases w <;> rfl
  have hzero : b = 0 ↔ Reading.unsigned.value w b = 0 := by
    rw [hvalue, Int.natCast_eq_zero]
    exact BitVec.toNat_inj.symm
  have hbeyond : w.mask.toNat < w.ofPair pair / b.toNat ↔ ¬Reading.unsigned.Holds w
      ((Reading.unsigned.pairValue w pair).tdiv (Reading.unsigned.value w b)) := by
    rw [hquotient, Holds, ← hmask]
    generalize w.ofPair pair / b.toNat = q
    omega
  refine ends_of_checks hzero hbeyond fun h0 hq => ⟨?quotient, ?remainder⟩
  case quotient =>
    have hholds := not_not.1 (mt hbeyond.2 hq)
    rw [hquotient] at hholds ⊢
    exact value_ofInt hholds
  case remainder =>
    have hholds := holds_tmod pair (mt hzero.2 h0)
    rw [hremainder] at hholds ⊢
    exact value_ofInt hholds

/-- No quotient of the width is beyond 64 bits, so that the check of its range is all that counts.
What is left after the products are taken away is the remainder. -/
theorem signedDivide_eq (w : Width) (pair : Pair) (b : Dword) :
    w.signedDivide pair b =
      if w.toInt b = 0 then .error .zeroDivisor
      else if (w.signedOfPair pair).tdiv (w.toInt b) < -Int.pow 2 (w.bits - 1) ||
          Int.pow 2 (w.bits - 1) ≤ (w.signedOfPair pair).tdiv (w.toInt b) then
        .error .quotientOverflow
      else .ok ⟨w.truncate (BitVec.ofInt 32 ((w.signedOfPair pair).tdiv (w.toInt b))),
        w.truncate (BitVec.ofInt 32 ((w.signedOfPair pair).tmod (w.toInt b)))⟩ := by
  have hhalf : Int.pow 2 (w.bits - 1) ≤ Int.pow 2 63 := by cases w <;> decide
  unfold Width.signedDivide Width.checkedDivide?
  dsimp only
  rw [Int.tmod_def, Int.mul_comm (w.toInt b)]
  generalize (w.signedOfPair pair).tdiv (w.toInt b) = q
  generalize Int.pow 2 (w.bits - 1) = half at hhalf ⊢
  generalize Int.pow 2 63 = limit at hhalf ⊢
  by_cases hzero : w.toInt b = 0
  · rw [if_pos hzero, if_pos hzero]
  rw [if_neg hzero, if_neg hzero, decide_eq_false hzero, Bool.false_or]
  by_cases hwide : limit ≤ q
  · have hbeyond : half ≤ q := hhalf.trans hwide
    rw [if_pos (decide_eq_true hwide), decide_eq_true hbeyond, Bool.or_true, if_pos rfl]
  · rw [if_neg (by simpa using hwide)]
    have hinside : (decide (-half ≤ q) && decide (q ≤ half - 1)) =
        !(decide (q < -half) || decide (half ≤ q)) := by
      simp only [Bool.not_or, ← decide_not, Int.not_lt, Int.not_le, Int.le_sub_one_iff]
    dsimp only
    rw [hinside]
    cases decide (q < -half) || decide (half ≤ q) <;> rfl

theorem divide_signed_ends (hp : pair.Fits w) :
    Reading.signed.Ends w pair b (w.signedDivide pair b) := by
  have hhalf : Int.pow 2 (w.bits - 1) = w.half := by cases w <;> rfl
  have hbeyond : (w.signedOfPair pair).tdiv (w.toInt b) < -Int.pow 2 (w.bits - 1) ||
      Int.pow 2 (w.bits - 1) ≤ (w.signedOfPair pair).tdiv (w.toInt b) ↔ ¬Reading.signed.Holds w
      ((Reading.signed.pairValue w pair).tdiv (Reading.signed.value w b)) := by
    rw [hp.signedOfPair_eq, hhalf, Holds, Width.Holds, value, Bool.or_eq_true, decide_eq_true_iff,
      decide_eq_true_iff]
    omega
  rw [signedDivide_eq]
  refine ends_of_checks Iff.rfl hbeyond fun h0 hq => ⟨?quotient, ?remainder⟩
  case quotient =>
    have hholds := not_not.1 (mt hbeyond.2 hq)
    rw [← hp.signedOfPair_eq] at hholds ⊢
    exact (w.toInt_truncate _).trans (value_ofInt hholds)
  case remainder =>
    have h0 : Reading.signed.value w b ≠ 0 := h0
    have hholds := holds_tmod pair h0
    rw [← hp.signedOfPair_eq] at hholds ⊢
    exact (w.toInt_truncate _).trans (value_ofInt hholds)

theorem divide_ends (hp : pair.Fits w) (hb : w.truncate b = b) (reading : Reading) :
    reading.Ends w pair b (reading.divide w pair b) := by
  cases reading with
  | unsigned => exact divide_unsigned_ends hp hb
  | signed => exact divide_signed_ends hp

end Reading

/-! ## Steps -/

namespace Exec

variable {H : Type} {p : Prefixes} {m : Machine H} {d : Division} {failure : DivisionFailure}

theorem divideValue_run
    (h : reading.divide w (accumulatorPair w m.toProcessor) b = .ok d) :
    (divideValue p w reading b).run m = .ok () { m with
      toProcessor := setAccumulatorPair w d.quotient d.remainder m.toProcessor } := by
  rw [divideValue, run_view_bind, h]
  rfl

theorem exists_divideValue_run (p : Prefixes) (m : Machine H)
    (h : reading.divide w (accumulatorPair w m.toProcessor) b = .error failure) :
    ∃ log, (divideValue p w reading b).run m = .error .divideError { m with log := log } := by
  rw [divideValue, run_view_bind, h]
  exact ⟨_, rfl⟩

end Exec

variable {H : Type} [Host H] {m : Machine H} {p : Prefixes} {next : Dword}

/-- A machine comes out of another one by a division of the accumulator pair. -/
structure Machine.Divided (m : Machine H) (w : Width) (reading : Reading) (b next : Dword)
    (m' : Machine H) : Prop where
  /-- The dividend is the quotient times the divisor, and what is left over. -/
  identity : reading.pairValue w (accumulatorPair w m.toProcessor) =
    reading.value w (accumulatorPair w m'.toProcessor).low * reading.value w b +
      reading.value w (accumulatorPair w m'.toProcessor).high
  /-- What is left over is smaller than the divisor. -/
  smaller : (reading.value w (accumulatorPair w m'.toProcessor).high).natAbs <
    (reading.value w b).natAbs
  /-- What is left over has the sign of the dividend, unless it is zero. -/
  sign : reading.value w (accumulatorPair w m'.toProcessor).high = 0 ∨
    (reading.value w (accumulatorPair w m'.toProcessor).high).sign =
      (reading.pairValue w (accumulatorPair w m.toProcessor)).sign
  /-- Outside the pair the general registers stay. -/
  parts : ∀ r, m'.regs.get r &&& ~~~Processor.pairMask w r =
    m.regs.get r &&& ~~~Processor.pairMask w r
  /-- All else stays, but for what every completed instruction moves. -/
  rest : ∃ log, m' =
    { m with regs := m'.regs, eip := next, log := log, retired := m.retired + 1 }

namespace Machine

omit [Host H] in
/-- A division replaces the pair by the quotient and what is left over. -/
theorem divided_of_isOf {log : Log} {d : Division}
    (hd : d.IsOf w (accumulatorPair w m.toProcessor) b reading) (h0 : reading.value w b ≠ 0) :
    m.Divided w reading b next { m with
      toProcessor :=
        setAccumulatorPair w d.quotient d.remainder { m.toProcessor with eip := next }
      log := log
      retired := m.retired + 1 } := by
  have hpair := accumulatorPair_set w d.quotient d.remainder { m.toProcessor with eip := next }
  have hquotient := (reading.value_truncate w d.quotient).trans hd.quotient
  have hremainder := (reading.value_truncate w d.remainder).trans hd.remainder
  constructor
  case identity =>
    rw [hpair, hquotient, hremainder]
    exact (Int.tdiv_mul_add_tmod _ _).symm
  case smaller =>
    rw [hpair, hremainder]
    exact natAbs_tmod_lt _ h0
  case sign =>
    rw [hpair, hremainder]
    exact tmod_eq_zero_or_sign_eq _ _
  case parts => exact setAccumulatorPair_outside w d.quotient d.remainder _
  case rest =>
    refine ⟨log, ?_⟩
    rw [setAccumulatorPair_eq]

/-- The division that a step makes divides the pair that stands there before the step. -/
theorem divide_ends_of_start (h : m.integerStart? = some ⟨p, .divide w reading b, next⟩) :
    reading.Ends w (accumulatorPair w m.toProcessor) b
      (reading.divide w (accumulatorPair w { m.toProcessor with eip := next }) b) := by
  have hpair : accumulatorPair w { m.toProcessor with eip := next } =
      accumulatorPair w m.toProcessor := accumulatorPair_congr rfl w
  rw [hpair]
  exact Reading.divide_ends (accumulatorPair_fits w m.toProcessor) (factorFits h) reading

/-- A division without a result is a fault that has changed nothing. -/
theorem exists_step_of_fails (h : m.integerStart? = some ⟨p, .divide w reading b, next⟩)
    (hf : reading.Fails w (accumulatorPair w m.toProcessor) b) :
    ∃ log, m.step = (.fault .divideError, { m with log := log }) := by
  obtain ⟨log, -, herror⟩ := exists_step_of_start h
  obtain ⟨failure, hdivide⟩ := (divide_ends_of_start h).failed hf
  obtain ⟨log', hrun⟩ := exists_divideValue_run p { m with eip := next, log := log } hdivide
  obtain ⟨log'', hstep⟩ := herror _ _ hrun
  exact ⟨log'', hstep⟩

/-- A division with a result is completed. -/
theorem step_of_not_fails (h : m.integerStart? = some ⟨p, .divide w reading b, next⟩)
    (hf : ¬reading.Fails w (accumulatorPair w m.toProcessor) b) :
    m.step.1 = .completed ∧ m.Divided w reading b next m.step.2 := by
  obtain ⟨log, hok, -⟩ := exists_step_of_start h
  obtain ⟨d, hdivide, hd⟩ := (divide_ends_of_start h).done hf
  have hstep := hok _ (divideValue_run hdivide)
  refine ⟨congrArg Prod.fst hstep, ?_⟩
  rw [hstep]
  exact divided_of_isOf hd fun h0 => hf (.inl h0)

end Machine

/-- A division faults exactly when its divisor is zero or its quotient leaves the width, and then
it has changed nothing.  Otherwise it divides the accumulator pair. -/
theorem step_of_division (h : m.integerStart? = some ⟨p, .divide w reading b, next⟩) :
    (m.step.1 = .fault .divideError ↔ reading.value w b = 0 ∨
      ¬reading.Holds w ((reading.pairValue w (accumulatorPair w m.toProcessor)).tdiv
        (reading.value w b))) ∧
    (m.step.1 = .fault .divideError → ∃ log, m.step.2 = { m with log := log }) ∧
    (m.step.1 ≠ .fault .divideError →
      m.step.1 = .completed ∧ m.Divided w reading b next m.step.2) := by
  change (_ ↔ reading.Fails w (accumulatorPair w m.toProcessor) b) ∧ _
  by_cases hf : reading.Fails w (accumulatorPair w m.toProcessor) b
  · obtain ⟨log, hstep⟩ := Machine.exists_step_of_fails h hf
    rw [hstep]
    exact ⟨iff_of_true rfl hf, fun _ => ⟨log, rfl⟩, fun hne => absurd rfl hne⟩
  · obtain ⟨hcompleted, hdivided⟩ := Machine.step_of_not_fails h hf
    rw [hcompleted]
    exact ⟨iff_of_false nofun hf, nofun, fun _ => ⟨rfl, hdivided⟩⟩

/-- A machine that divides minus seven by two, as signed bytes. -/
def dividing : Machine Ram :=
  { Machine.running #[0xF6, 0xFB] .initial with regs := #v[0xFFF9, 0, 0, 2, 0, 0, 0, 0] }

theorem step_of_division_dividing :
    dividing.integerStart? = some ⟨{ start := 0 }, .divide .byte .signed 2, 2⟩ ∧
      dividing.step.1 = .completed ∧ dividing.Divided .byte .signed 2 2 dividing.step.2 := by
  have hstart : dividing.integerStart? = some ⟨{ start := 0 }, .divide .byte .signed 2, 2⟩ := by
    decide +kernel
  have hne : dividing.step.1 ≠ .fault .divideError := by decide +kernel
  exact ⟨hstart, (step_of_division hstart).2.2 hne⟩

end Ia32
