import Ia32.Proofs.FloatStarts

/-!
# Comparisons

The top register is compared with a number in memory, with another register or
with zero.  All forms check their operands, tell how these compare in three
conditions, and then pop as many registers as their encoding says
(`Machine.compare_step`).  An exception that is not masked stops them before
that, with all three conditions set.

The conditions are set in advance.  Only the form with two registers does this after
it has looked for empty registers, so that an underflow that is not masked leaves
the conditions as they were.
-/

namespace Ia32

open Host Exec

variable {H : Type}

/-! ## Conditions -/

namespace Fpu

/-- Conditions that are set or left alone by what sets and clears other bits. -/
theorem comparison_setCondition (f : Fpu) {bits : Word} (hb : bits &&& Status.comparison = 0)
    (on : Bool) :
    (f.setCondition bits on).status &&& Status.comparison = f.status &&& Status.comparison :=
  setCondition_status_and hb on

/-- The conditions of a comparison take the place of those before. -/
theorem comparison_set (f : Fpu) {bits : Word} (hb : bits &&& Status.comparison = bits) :
    ((f.setCondition Status.comparison false).setCondition bits true).status &&&
      Status.comparison = bits := by
  change (f.status &&& ~~~Status.comparison ||| bits) &&& Status.comparison = bits
  rw [BitVec.and_or_distrib_right, and_not_and_self, hb]
  exact BitVec.zero_or

/-- A unit that a comparison has prepared: all its conditions are set, and the rest stays. -/
structure Presets (f f' : Fpu) : Prop where
  stack : f.SameStack f'
  conditions : f'.status &&& Status.comparison = Status.comparison
  pending : f'.isPending = f.isPending

end Fpu

namespace FloatExec

theorem relationConditions_and (r : Relation) :
    relationConditions r &&& Status.comparison = relationConditions r := by
  cases r <;> decide

/-! ## Checks -/

/-- The exceptions of reading a register. -/
def emptyExceptions (f : Fpu) (i : Nat) : Word := if f.tag i = .empty then stackExceptions else 0

/-- The exceptions of an operand that is compared. -/
def operandExceptions (x : Extended) (denormal : Bool) : Word :=
  if denormal || x.isDenormal then Exception.denormal
  else if x.isNan then Exception.invalid
  else 0

/-- A program raises exceptions and does nothing else: the register stack and the conditions of a
comparison stay.  It is stopped if one of the exceptions is not masked. -/
def Checks (x : FloatExec H Unit) (f : Fpu) (bits : Word) : Prop :=
  ∀ c g, f.SameStack g → x.Leaves c g
    (fun _ g' => f.unmasked bits = 0 ∧ f.SameStack g' ∧
      g'.status &&& Status.comparison = g.status &&& Status.comparison ∧
      g'.isPending = g.isPending)
    (fun g' => f.unmasked bits ≠ 0 ∧ f.SameStack g' ∧
      g'.status &&& Status.comparison = g.status &&& Status.comparison ∧
      g'.isPending = true)

namespace Checks

variable {x y : FloatExec H Unit} {f : Fpu} {bits bits' : Word} {p : Prefixes}

theorem pure : Checks (Pure.pure () : FloatExec H Unit) f 0 :=
  fun _ _ hg => .pure ⟨f.unmasked_zero, hg, rfl, rfl⟩

/-- Checks one after the other are stopped when one of them is. -/
theorem andThen (hx : Checks x f bits) (hy : Checks y f bits') :
    Checks (x >>= fun _ => y) f (bits ||| bits') := by
  intro c g hg
  refine .bind ((hx c g hg).mono ?_ ?_)
  · rintro _ g₁ ⟨hmasked, hg₁, hcomparison₁, hpending₁⟩
    refine (hy c g₁ hg₁).mono ?_ ?_
    · rintro _ g₂ ⟨hmasked', hg₂, hcomparison₂, hpending₂⟩
      refine ⟨?_, hg₂, hcomparison₂.trans hcomparison₁, hpending₂.trans hpending₁⟩
      rw [Fpu.unmasked_or, hmasked, hmasked']
      exact BitVec.or_zero
    · rintro g₂ ⟨hunmasked, hg₂, hcomparison₂, hpending₂⟩
      refine ⟨?_, hg₂, hcomparison₂.trans hcomparison₁, hpending₂⟩
      rw [Fpu.unmasked_or]
      exact Fpu.or_ne_zero_right hunmasked
  · rintro g₁ ⟨hunmasked, hrest⟩
    refine ⟨?_, hrest⟩
    rw [Fpu.unmasked_or]
    exact Fpu.or_ne_zero_left hunmasked

theorem raise (hcomparison : bits &&& Status.comparison = 0)
    (hsummary : bits &&& Status.summary = 0) :
    Checks (FloatExec.raise p bits : FloatExec H Unit) f bits := by
  intro c g hg
  rw [← hg.unmasked_eq]
  refine .raise (fun h => ⟨h, hg.setCondition _ _, ?_, ?_⟩) fun h => ⟨h, hg.stopped _, ?_, ?_⟩
  · exact g.comparison_setCondition hcomparison true
  · exact g.isPending_setCondition hsummary true
  · exact g.stopped_status_and hcomparison (by decide)
  · exact g.isPending_stopped bits

theorem requireFull (i : Nat) :
    Checks (FloatExec.requireFull p i : FloatExec H Unit) f (emptyExceptions f i) := by
  intro c g hg
  refine .view (.ite ?_ ?_)
  · intro hempty
    rw [hg.tag_eq] at hempty
    rw [emptyExceptions, if_pos hempty]
    have hraise : Checks (FloatExec.raise p stackExceptions : FloatExec H Unit) f
        stackExceptions :=
      raise (by decide) (by decide)
    have hclear : (g.setCondition Status.c1 false).status &&& Status.comparison =
        g.status &&& Status.comparison :=
      g.comparison_setCondition (by decide) false
    have hpending : (g.setCondition Status.c1 false).isPending = g.isPending :=
      g.isPending_setCondition (by decide) false
    refine .bind (.update ((hraise c _ (hg.setCondition Status.c1 false)).mono ?_ ?_))
    · rintro _ g' ⟨h, hg', hcomparison, hp⟩
      exact ⟨h, hg', hcomparison.trans hclear, hp.trans hpending⟩
    · rintro g' ⟨h, hg', hcomparison, hp⟩
      exact ⟨h, hg', hcomparison.trans hclear, hp⟩
  · intro hfull
    rw [hg.tag_eq] at hfull
    rw [emptyExceptions, if_neg hfull]
    exact pure c g hg

theorem checkOperand (x : Extended) (denormal : Bool) :
    Checks (FloatExec.checkOperand p x denormal : FloatExec H Unit) f
      (operandExceptions x denormal) := by
  unfold FloatExec.checkOperand operandExceptions
  split
  · exact raise (by decide) (by decide)
  · split
    · exact raise (by decide) (by decide)
    · exact pure

end Checks

/-! ## The three forms -/

/-- How a comparison ends that is not stopped. -/
structure Compared (f : Fpu) (raised : Word) (r : Relation) (pops : Nat) (f' : Fpu) : Prop where
  masked : f.unmasked raised = 0
  conditions : f'.status &&& Status.comparison = relationConditions r
  stack : (Nat.repeat Fpu.pop pops f).SameStack f'
  pending : f'.isPending = f.isPending

/-- How a comparison ends that is stopped. -/
structure Interrupted (f : Fpu) (raised conditions : Word) (f' : Fpu) : Prop where
  unmasked : f.unmasked raised ≠ 0
  conditions : f'.status &&& Status.comparison = conditions
  stack : f.SameStack f'
  pending : f'.isPending = true

section Forms

variable {c : Config} {f g : Fpu} {p : Prefixes} {bits bits' : Word}

/-- What follows checks, when they do not stop it. -/
theorem leaves_checked {x : FloatExec H Unit} {k : Unit → FloatExec H Unit} {r : Relation}
    {pops : Nat} {conditions : Word} (hx : Checks x f bits) (hg : f.SameStack g)
    (hpending : g.isPending = f.isPending)
    (hk : ∀ g', f.SameStack g' → g'.isPending = f.isPending →
      g'.status &&& Status.comparison = g.status &&& Status.comparison →
      Leaves (k ()) c g' (fun _ => Compared f bits' r pops) (Interrupted f bits' conditions)) :
    Leaves (x >>= k) c g (fun _ => Compared f (bits ||| bits') r pops)
      (Interrupted f (bits ||| bits')
        (if f.unmasked bits = 0 then conditions else g.status &&& Status.comparison)) := by
  refine .bind ((hx c g hg).mono ?_ ?_)
  · rintro _ g₁ ⟨hmasked, hg₁, hcomparison₁, hpending₁⟩
    rw [if_pos hmasked]
    refine (hk g₁ hg₁ (hpending₁.trans hpending) hcomparison₁).mono ?_ ?_
    · intro _ f' h
      refine { h with masked := ?_ }
      rw [Fpu.unmasked_or, hmasked, h.masked]
      exact BitVec.or_zero
    · intro f' h
      refine { h with unmasked := ?_ }
      rw [Fpu.unmasked_or]
      exact Fpu.or_ne_zero_right h.unmasked
  · rintro g₁ ⟨hunmasked, hg₁, hcomparison₁, hpending₁⟩
    rw [if_neg hunmasked]
    refine ⟨?_, hcomparison₁, hg₁, hpending₁⟩
    rw [Fpu.unmasked_or]
    exact Fpu.or_ne_zero_left hunmasked

/-- What follows checks when all conditions are set. -/
theorem leaves_checked_preset {x : FloatExec H Unit} {k : Unit → FloatExec H Unit} {r : Relation}
    {pops : Nat} (hx : Checks x f bits) (hg : f.Presets g)
    (hk : ∀ g', f.Presets g' → Leaves (k ()) c g' (fun _ => Compared f bits' r pops)
      (Interrupted f bits' Status.comparison)) :
    Leaves (x >>= k) c g (fun _ => Compared f (bits ||| bits') r pops)
      (Interrupted f (bits ||| bits') Status.comparison) := by
  have h := leaves_checked (c := c) hx hg.stack hg.pending fun g' hg' hpending hcomparison =>
    hk g' ⟨hg', hcomparison.trans hg.conditions, hpending⟩
  rwa [hg.conditions, ite_self] at h

/-- All conditions are set in advance. -/
theorem leaves_preset {k : Unit → FloatExec H Unit} {ok : Unit → Fpu → Prop} {stop : Fpu → Prop}
    (hg : f.SameStack g) (hpending : g.isPending = f.isPending)
    (hk : ∀ g', f.Presets g' → Leaves (k ()) c g' ok stop) :
    Leaves (setComparison Status.comparison >>= k) c g ok stop := by
  refine .bind (.update (hk _ ⟨(hg.setCondition _ _).setCondition _ _, ?_, ?_⟩))
  · exact g.comparison_set (by decide)
  · rw [Fpu.isPending_setCondition _ (by decide), Fpu.isPending_setCondition _ (by decide)]
    exact hpending

/-- At the end the conditions tell the relation, and registers are popped. -/
theorem compared_repeat_pop (hg : f.Presets g) (r : Relation) (pops : Nat) :
    Compared f 0 r pops (Nat.repeat Fpu.pop pops
      ((g.setCondition Status.comparison false).setCondition (relationConditions r) true)) where
  masked := f.unmasked_zero
  conditions := by
    rw [Fpu.status_repeat_pop]
    exact g.comparison_set (relationConditions_and r)
  stack := ((hg.stack.setCondition _ _).setCondition _ _).repeat_pop pops
  pending := by
    rw [Fpu.isPending_repeat_pop, Fpu.isPending_setCondition _ (by cases r <;> decide),
      Fpu.isPending_setCondition _ (by decide), hg.pending]

theorem compareLoaded_leaves (loaded : Loaded) (pops : Bool) :
    Leaves (compareLoaded p loaded pops : FloatExec H Unit) c f
      (fun _ => Compared f
        (emptyExceptions f 0 ||| (operandExceptions (f.value 0) false |||
          operandExceptions loaded.value loaded.denormal))
        ((f.value 0).compare loaded.value) pops.toNat)
      (Interrupted f
        (emptyExceptions f 0 ||| (operandExceptions (f.value 0) false |||
          operandExceptions loaded.value loaded.denormal))
        Status.comparison) := by
  refine leaves_preset (.refl f) rfl fun g hg => ?_
  refine leaves_checked_preset (.requireFull 0) hg fun g hg => .view ?_
  rw [hg.stack.value_eq]
  refine leaves_checked_preset (.checkOperand _ _) hg fun g hg => ?_
  rw [← BitVec.or_zero (x := operandExceptions loaded.value loaded.denormal)]
  refine leaves_checked_preset (.checkOperand _ _) hg fun g hg => .bind (.update ?_)
  have hend := compared_repeat_pop hg ((f.value 0).compare loaded.value) pops.toNat
  cases pops with
  | false => exact .pure hend
  | true => exact .update hend

theorem compare_leaves (i pops : Nat) :
    Leaves (compare p i pops : FloatExec H Unit) c f
      (fun _ => Compared f
        (emptyExceptions f 0 ||| emptyExceptions f i |||
          (operandExceptions (f.value 0) false ||| operandExceptions (f.value i) false))
        ((f.value 0).compare (f.value i)) pops)
      (Interrupted f
        (emptyExceptions f 0 ||| emptyExceptions f i |||
          (operandExceptions (f.value 0) false ||| operandExceptions (f.value i) false))
        (if f.unmasked (emptyExceptions f 0 ||| emptyExceptions f i) = 0 then Status.comparison
          else f.status &&& Status.comparison)) := by
  unfold compare
  rw [← bind_assoc]
  refine leaves_checked (.andThen (.requireFull 0) (.requireFull i)) (.refl f) rfl
    fun g hg hpending _ => ?_
  refine leaves_preset hg hpending fun g hg => .view (.view ?_)
  rw [hg.stack.value_eq, hg.stack.value_eq]
  refine leaves_checked_preset (.checkOperand _ _) hg fun g hg => ?_
  rw [← BitVec.or_zero (x := operandExceptions (f.value i) false)]
  refine leaves_checked_preset (.checkOperand _ _) hg fun g hg => .bind (.update (.update ?_))
  exact compared_repeat_pop hg _ pops

theorem test_leaves :
    Leaves (test p : FloatExec H Unit) c f
      (fun _ => Compared f (emptyExceptions f 0 ||| operandExceptions (f.value 0) false)
        ((f.value 0).compare (.zero false)) 0)
      (Interrupted f (emptyExceptions f 0 ||| operandExceptions (f.value 0) false)
        Status.comparison) := by
  refine leaves_preset (.refl f) rfl fun g hg => ?_
  refine leaves_checked_preset (.requireFull 0) hg fun g hg => .view ?_
  rw [hg.stack.value_eq, ← BitVec.or_zero (x := operandExceptions (f.value 0) false)]
  refine leaves_checked_preset (.checkOperand _ _) hg fun g hg => .update ?_
  exact compared_repeat_pop hg _ 0

end Forms

end FloatExec

/-! ## Steps -/

/-- What a comparison compares the top register with. -/
structure Comparand where
  /-- The number.  An empty register counts as the indefinite NaN. -/
  value : Extended
  /-- Whether it is denormal in the format that it has in memory. -/
  denormal : Bool
  /-- Whether it is a register that is empty. -/
  empty : Bool
deriving DecidableEq, Repr

namespace FloatStart

/-- The comparand of a comparison. -/
def comparand? (start : FloatStart) (f : Fpu) : Option Comparand :=
  match start.instruction, start.operand with
  | .compareMemory _ _, .number loaded => some ⟨loaded.value, loaded.denormal, false⟩
  | .compare i _, _ => some ⟨f.value i, false, f.tag i = .empty⟩
  | .test, _ => some ⟨.zero false, false, false⟩
  | _, _ => none

/-- Whether both operands of a comparison are registers. -/
def comparesRegisters (start : FloatStart) : Bool :=
  match start.instruction with
  | .compare _ _ => true
  | _ => false

end FloatStart

namespace FloatInstruction

/-- How many registers an instruction pops, if it is a comparison. -/
def comparisonPops? : FloatInstruction → Option Nat
  | .compareMemory _ pops => some pops.toNat
  | .compare _ pops => some pops
  | .test => some 0
  | _ => none

/-- How many registers an encoding of a comparison pops: two when it is the register form of escape
six, else one when the middle field of the mode byte is three. -/
def popsOf (number : BitVec 3) (mode : ModeByte) : Nat :=
  if mode.isRegister ∧ number = 6 then 2 else if mode.reg = 3 then 1 else 0

theorem comparisonPops_of_decode :
    ∀ (number : BitVec 3) (b : Byte),
      ∀ pops ∈ (decode number (.ofByte b)).toOption.bind comparisonPops?,
        pops = popsOf number (.ofByte b) := by
  decide +kernel

end FloatInstruction

namespace Fpu

/-- The exceptions of the registers that a comparison reads. -/
def underflows (f : Fpu) (b : Comparand) : Word :=
  if f.tag 0 = .empty ∨ b.empty = true then FloatExec.stackExceptions else 0

/-- The exceptions of a comparison: those of registers that are empty, and those of operands that
are denormal or NaNs. -/
def comparisonExceptions (f : Fpu) (b : Comparand) : Word :=
  f.underflows b |||
    (FloatExec.operandExceptions (f.value 0) false |||
      FloatExec.operandExceptions b.value b.denormal)

end Fpu

variable [Host H] {m : Machine H} {start : FloatStart}

omit [Host H] in
theorem FloatStart.comparisonPops?_isSome {f : Fpu} {b : Comparand}
    (hb : start.comparand? f = some b) : ∃ pops, start.instruction.comparisonPops? = some pops := by
  obtain ⟨p, number, mode, i, operand⟩ := start
  cases i with
  | compareMemory format pops => exact ⟨_, rfl⟩
  | compare i pops => exact ⟨_, rfl⟩
  | test => exact ⟨_, rfl⟩
  | _ => cases hb

/-- Each form of comparison, as a program. -/
theorem FloatStart.compare_leaves {f : Fpu} {b : Comparand} (c : Config)
    (hb : start.comparand? f = some b) {pops : Nat}
    (hpops : start.instruction.comparisonPops? = some pops) :
    (start.program : FloatExec H Unit).Leaves c f
      (fun _ => FloatExec.Compared f (f.comparisonExceptions b) ((f.value 0).compare b.value) pops)
      (FloatExec.Interrupted f (f.comparisonExceptions b)
        (if start.comparesRegisters = true ∧ f.unmasked (f.underflows b) ≠ 0 then
          f.status &&& Status.comparison else Status.comparison)) := by
  obtain ⟨p, number, mode, i, operand⟩ := start
  have honly : ∀ value denormal,
      f.underflows ⟨value, denormal, false⟩ = FloatExec.emptyExceptions f 0 := by
    intro value denormal
    simp only [Fpu.underflows, FloatExec.emptyExceptions, Bool.false_eq_true, or_false]
  cases i with
  | compareMemory format pops =>
    cases operand with
    | number loaded =>
      cases hb
      cases hpops
      rw [Fpu.comparisonExceptions, honly]
      simp only [comparesRegisters, Bool.false_eq_true, false_and, if_false]
      exact FloatExec.compareLoaded_leaves loaded pops
    | none => cases hb
    | place seg offset => cases hb
  | compare i pops =>
    cases hb
    cases hpops
    have hboth : f.underflows ⟨f.value i, false, f.tag i = .empty⟩ =
        FloatExec.emptyExceptions f 0 ||| FloatExec.emptyExceptions f i := by
      simp only [Fpu.underflows, FloatExec.emptyExceptions, decide_eq_true_eq]
      by_cases h0 : f.tag 0 = .empty <;> by_cases hi : f.tag i = .empty <;>
        simp only [h0, hi, if_true, if_false, or_true, or_false] <;> rfl
    rw [Fpu.comparisonExceptions, hboth]
    simp only [comparesRegisters, true_and, ne_eq, ite_not]
    exact FloatExec.compare_leaves i pops
  | test =>
    cases hb
    cases hpops
    have hzero : FloatExec.operandExceptions (.zero false) false = 0 := by decide
    rw [Fpu.comparisonExceptions, honly, hzero]
    simp only [comparesRegisters, Bool.false_eq_true, false_and, if_false, BitVec.ofNat_eq_ofNat,
      BitVec.or_zero]
    exact FloatExec.test_leaves
  | _ => cases hb

/-- What a comparison does.  It is stopped when one of its exceptions is not masked.  Then nothing
is popped, and all conditions are set, unless it is the form with two registers and one of them is
empty.  Otherwise the conditions tell how the top register compares with the comparand, and as many
registers are popped as the encoding says. -/
theorem Machine.compare_step (h : m.Ready start) {b : Comparand}
    (hb : start.comparand? m.fpu = some b) :
    m.step.1 = .completed ∧
      (m.step.2.fpu.isPending = true ↔ m.fpu.unmasked (m.fpu.comparisonExceptions b) ≠ 0) ∧
      (m.step.2.fpu.isPending = true →
        m.fpu.SameStack m.step.2.fpu ∧
        m.step.2.fpu.status &&& Status.comparison =
          if start.comparesRegisters = true ∧ m.fpu.unmasked (m.fpu.underflows b) ≠ 0 then
            m.fpu.status &&& Status.comparison else Status.comparison) ∧
      (m.step.2.fpu.isPending = false →
        (Nat.repeat Fpu.pop (FloatInstruction.popsOf start.number start.mode) m.fpu).SameStack
          m.step.2.fpu ∧
        m.step.2.fpu.status &&& Status.comparison =
          FloatExec.relationConditions ((m.fpu.value 0).compare b.value)) := by
  obtain ⟨pops, hpops⟩ := FloatStart.comparisonPops?_isSome hb
  have hencoded : pops = FloatInstruction.popsOf start.number start.mode := by
    obtain ⟨byte, _, _, _, hs⟩ := exists_starts h.starts
    rw [hs.mode]
    apply FloatInstruction.comparisonPops_of_decode
    rw [← hs.mode, hs.decodes]
    exact hpops
  have hready := m.fpu.sameStack_readied
  have hcleared : m.fpu.readied.status &&& Status.comparison = m.fpu.status &&& Status.comparison :=
    m.fpu.comparison_setCondition (by decide) false
  obtain ⟨eip, log, f, offset, selector, opcode, hstep, hend⟩ :=
    h.step_of_leaves (FloatStart.compare_leaves m.config (f := m.fpu.readied) hb hpops)
  rw [hstep, ← hencoded]
  refine ⟨rfl, ?_⟩
  rcases hend with hok | hstop
  · have hidle : f.isPending = false :=
      hok.pending.trans ((m.fpu.isPending_setCondition (by decide) false).trans h.idle)
    refine ⟨iff_of_false (fun hp => ?_) ?_, fun hp => ?_, fun _ => ⟨?_, hok.conditions⟩⟩
    · exact Bool.false_ne_true (hidle.symm.trans hp)
    · exact not_not.2 hok.masked
    · exact absurd (hidle.symm.trans hp) Bool.false_ne_true
    · exact ((hready.repeat_pop pops).trans hok.stack).remembering _ _ _
  · have hp := hstop.pending
    refine ⟨iff_of_true hp hstop.unmasked, fun _ => ⟨?_, ?_⟩, fun hidle => ?_⟩
    · exact (hready.trans hstop.stack).remembering _ _ _
    · rw [← hcleared]
      exact hstop.conditions
    · exact absurd (hidle.symm.trans hp) Bool.false_ne_true

/-- A machine before it compares one with minus one and pops both. -/
def Machine.comparingOnes : Machine Ram :=
  .running #[0xDE, 0xD9] ((Fpu.initial.store 0 .one).store 1 Extended.one.neg)

/-- One is the greater one, and the stack is two registers higher. -/
theorem Machine.compare_step_comparingOnes :
    comparingOnes.step.1 = .completed ∧ comparingOnes.step.2.fpu.isPending = false ∧
      comparingOnes.step.2.fpu.top = 2 ∧
      comparingOnes.step.2.fpu.status &&& Status.comparison = 0 := by
  have hready : comparingOnes.Ready
      ⟨{ start := 0 }, 6, .ofByte 0xD9, .compare 1 2, .none⟩ :=
    ⟨by decide +kernel, rfl, rfl, by decide, by decide⟩
  have hcomparand : FloatStart.comparand?
      ⟨{ start := 0 }, 6, .ofByte 0xD9, .compare 1 2, .none⟩ comparingOnes.fpu =
        some ⟨Extended.one.neg, false, false⟩ := by decide +kernel
  obtain ⟨hcompleted, hstops, -, hends⟩ := compare_step hready hcomparand
  have hidle : comparingOnes.step.2.fpu.isPending = false := by
    rw [← Bool.not_eq_true, hstops, not_not]
    decide +kernel
  refine ⟨hcompleted, hidle, ?_, ?_⟩
  · exact (hends hidle).1.top.trans (by decide +kernel)
  · exact (hends hidle).2.trans (by decide +kernel)

/-- A machine before it compares two registers that are empty, when invalid operations are not
masked. -/
def Machine.comparingEmpty : Machine Ram :=
  .running #[0xD8, 0xD1] { Fpu.initial with control := 0x037E }

/-- The comparison is stopped, and none of its conditions is set. -/
theorem Machine.not_presets_comparingEmpty :
    comparingEmpty.floatStart? = some ⟨{ start := 0 }, 0, .ofByte 0xD1, .compare 1 0, .none⟩ ∧
      comparingEmpty.fpu.isPending = false ∧ comparingEmpty.step.1 = .completed ∧
      comparingEmpty.step.2.fpu.isPending = true ∧
      comparingEmpty.step.2.fpu.status &&& Status.comparison = 0 ∧
      Status.comparison ≠ 0 := by
  decide +kernel

end Ia32
