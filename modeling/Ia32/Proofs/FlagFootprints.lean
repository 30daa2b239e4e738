import Ia32.Proofs.StepRuns

/-!
# Flags that a step may change

Each instruction has a mask of flags, and a step changes no flag outside the mask
of its instruction, whether the instruction is completed or faults on the way.
The mask depends on the opcode, and for groups on the mode byte.  For shifts it
depends on the count too, so that it is found by a program (`flagMask`) that
takes the operands from the code in the order in which the instruction takes
them.
-/

namespace Ia32

open Host Exec

namespace Flags

/-! ## Agreement outside a mask -/

/-- Two flags registers agree outside a mask. -/
def SameOutside (mask flags flags' : Dword) : Prop :=
  ∀ i, mask.getLsbD i = false → flags'.getLsbD i = flags.getLsbD i

variable {w : Width} {mask mask' flags flags' flags'' : Dword}

/-- A mask within another one has no other flag. -/
theorem getLsbD_of_within (hm : mask &&& ~~~mask' = 0) {i : Nat} (hi : mask'.getLsbD i = false) :
    mask.getLsbD i = false := by
  have hz : (mask &&& ~~~mask').getLsbD i = false := by simp [hm]
  by_cases h32 : i < 32
  · rw [BitVec.getLsbD_and, BitVec.getLsbD_not, hi, decide_eq_true h32] at hz
    simpa using hz
  · exact BitVec.getLsbD_of_ge _ i (Nat.le_of_not_lt h32)

/-- To be within a mask is transitive. -/
theorem within_trans (h : mask &&& ~~~mask' = 0) (h' : mask' &&& ~~~flags = 0) :
    mask &&& ~~~flags = 0 := by
  apply BitVec.eq_of_getLsbD_eq
  intro i hi
  rw [BitVec.getLsbD_and, BitVec.getLsbD_not]
  cases hf : flags.getLsbD i with
  | true => simp
  | false => simp [getLsbD_of_within h (getLsbD_of_within h' hf)]

namespace SameOutside

theorem refl (mask flags : Dword) : SameOutside mask flags flags := fun _ _ => rfl

theorem trans (h : SameOutside mask flags flags') (h' : SameOutside mask flags' flags'') :
    SameOutside mask flags flags'' := by
  intro i hi
  rw [h' i hi, h i hi]

/-- A larger mask permits more changes. -/
theorem mono (h : SameOutside mask flags flags') (hm : mask &&& ~~~mask' = 0) :
    SameOutside mask' flags flags' := by
  intro i hi
  exact h i (getLsbD_of_within hm hi)

/-- A mask that is joined with another one permits no fewer changes. -/
theorem or_left (h : SameOutside mask flags flags') (mask' : Dword) :
    SameOutside (mask ||| mask') flags flags' := by
  intro i hi
  rw [BitVec.getLsbD_or, Bool.or_eq_false_iff] at hi
  exact h i hi.1

theorem or_right (h : SameOutside mask flags flags') (mask' : Dword) :
    SameOutside (mask' ||| mask) flags flags' := by
  rw [BitVec.or_comm]
  exact h.or_left mask'

/-- Some flags of the mask are assigned. -/
theorem assign (h : SameOutside mask flags flags') {bits : Dword} (hb : bits &&& ~~~mask = 0)
    (on : Bool) : SameOutside mask flags (assign flags' bits on) := by
  intro i hi
  rw [getLsbD_assign (getLsbD_of_within hb hi), h i hi]

/-- Sign, zero and parity are assigned together. -/
theorem afterResult (h : SameOutside mask flags flags')
    (hb : (sign ||| zero ||| parity) &&& ~~~mask = 0) (result : Dword) :
    SameOutside mask flags (afterResult w flags' result) := by
  have hbits (bits : Dword) (h : bits &&& ~~~(sign ||| zero ||| parity) = 0) :
      bits &&& ~~~mask = 0 := within_trans h hb
  exact ((h.assign (hbits sign (by decide)) _).assign (hbits zero (by decide)) _).assign
    (hbits parity (by decide)) _

end SameOutside

/-! ## Masks -/

/-- The flags that an increment or a decrement sets. -/
def stepMask : Dword := parity ||| auxiliary ||| zero ||| sign ||| overflow

/-- The flags that a bitwise operation sets. -/
def logicMask : Dword := carry ||| parity ||| zero ||| sign ||| overflow

/-- The flags that a shift by a count less than 32 sets. -/
def shiftMask (count : Nat) : Dword :=
  if count = 0 then 0
  else carry ||| parity ||| zero ||| sign ||| (if count = 1 then overflow else 0)

/-- The flags that a rotate by a count less than 32 sets. -/
def rotateMask (count : Nat) : Dword :=
  if count = 0 then 0 else carry ||| (if count = 1 then overflow else 0)

/-- The flags that an unsigned product sets. -/
def productMask : Dword := carry ||| overflow

/-- The flags that a signed product sets. -/
def signedProductMask : Dword := carry ||| sign ||| overflow

/-- Carry is put back. -/
theorem SameOutside.keepCarry (h : SameOutside arithmetic flags flags') :
    SameOutside stepMask flags ((flags' &&& ~~~carry) ||| (flags &&& carry)) := by
  intro i hi
  cases hc : carry.getLsbD i with
  | true => simp [hc]
  | false =>
    have hstep : (stepMask ||| carry).getLsbD i = false := by simp [hi, hc]
    have hsame := h i (getLsbD_of_within (by decide) hstep)
    have hcleared : (flags' &&& ~~~carry).getLsbD i = flags'.getLsbD i := getLsbD_assign hc false
    rw [BitVec.getLsbD_or, BitVec.getLsbD_and (x := flags), hcleared, hc, hsame]
    simp

/-- An increment is an addition that puts carry back. -/
theorem sameOutside_afterInc (a result : Dword) :
    SameOutside stepMask flags (afterInc w flags a result) :=
  SameOutside.keepCarry (sameControl_afterAdd a 1 0 result)

/-- A decrement is a subtraction that puts carry back. -/
theorem sameOutside_afterDec (a result : Dword) :
    SameOutside stepMask flags (afterDec w flags a result) :=
  SameOutside.keepCarry (sameControl_afterSub a 1 result)

/-- A bitwise operation clears carry and overflow, and leaves the auxiliary flag alone. -/
theorem sameOutside_afterLogic (result : Dword) :
    SameOutside logicMask flags (afterLogic w flags result) := by
  have hcleared : SameOutside logicMask flags (assign flags (overflow ||| carry) false) :=
    (SameOutside.refl logicMask flags).assign (by decide) false
  exact hcleared.afterResult (by decide) result

end Flags

open Flags

/-- The flags that a two-operand operation sets. -/
def AluOp.flagMask : AluOp → Dword
  | .and | .or | .xor => logicMask
  | _ => arithmetic

/-- Arithmetic sets all six flags; bitwise operations spare the auxiliary one. -/
theorem AluOp.sameOutside_apply (w : Width) (op : AluOp) (flags a b : Dword) :
    SameOutside op.flagMask flags (op.apply w flags a b).2 := by
  cases op with
  | and | or | xor => exact sameOutside_afterLogic _
  | add | adc => exact sameControl_afterAdd _ _ _ _
  | sub | sbb | cmp => exact sameControl_afterSub _ _ _

/-! ## Shifts and rotates -/

namespace ShiftOp

/-- Whether the operation is a rotate. -/
def isRotate : ShiftOp → Bool
  | .rol | .ror | .rcl | .rcr => true
  | _ => false

/-- The flags that a shift or rotate by a count sets. -/
def flagMask (op : ShiftOp) (count : Nat) : Dword :=
  if op.isRotate then rotateMask count else shiftMask count

variable {w : Width} {count : Nat} {flags result : Dword} {carry overflow : Bool}

/-- A rotate sets carry, and overflow if the count is one. -/
theorem sameOutside_rotated (hc : count ≠ 0) :
    SameOutside (rotateMask count) flags (rotated count flags result carry overflow).flags := by
  unfold rotated rotateMask assignOverflow
  by_cases hone : count = 1
  · simp only [hone, if_true, Nat.one_ne_zero, if_false]
    exact ((SameOutside.refl _ flags).assign (by decide) carry).assign (by decide) overflow
  · simp only [hone, hc, if_false]
    exact (SameOutside.refl _ flags).assign (by decide) carry

/-- A shift sets the flags of its result too. -/
theorem sameOutside_shifted (hc : count ≠ 0) :
    SameOutside (shiftMask count) flags (shifted w count flags result carry overflow).flags := by
  unfold shifted shiftMask assignOverflow
  by_cases hone : count = 1
  · simp only [hone, if_true, Nat.one_ne_zero, if_false]
    refine SameOutside.afterResult ?_ (by decide) result
    exact ((SameOutside.refl _ flags).assign (by decide) carry).assign (by decide) overflow
  · simp only [hone, hc, if_false]
    refine SameOutside.afterResult ?_ (by decide) result
    exact (SameOutside.refl _ flags).assign (by decide) carry

/-- A shift or rotate that has an outcome has a count that is not zero. -/
theorem sameOutside_apply {op : ShiftOp} {value : Dword} {outcome : Outcome}
    (h : op.apply w flags value count = some outcome) :
    SameOutside (op.flagMask count) flags outcome.flags := by
  unfold apply at h
  split at h
  next => cases h
  next hc =>
    cases op with
    | rol | ror =>
      cases h
      exact sameOutside_rotated hc
    | rcl | rcr =>
      dsimp only at h
      split at h
      · cases h
      · cases h
        exact sameOutside_rotated hc
    | shl | shr | sar =>
      cases h
      exact sameOutside_shifted hc

end ShiftOp

/-- A double shift sets what a shift by the same count sets. -/
theorem sameOutside_doubleShift {w : Width} {direction : Direction} {flags value fill : Dword}
    {count : Nat} {outcome : Outcome}
    (h : doubleShift w direction flags value fill count = some outcome) :
    SameOutside (shiftMask count) flags outcome.flags := by
  unfold doubleShift at h
  split at h
  · cases h
  next hc =>
    cases h
    refine ShiftOp.sameOutside_shifted fun hzero => hc ?_
    simp [hzero]

/-- The flag that an instruction changes alone. -/
def Exec.FlagChange.flagMask : FlagChange → Dword
  | .invertCarry | .clearCarry | .setCarry => carry
  | .clearDirection | .setDirection => direction

/-- An instruction that changes one flag changes no other one. -/
theorem Exec.FlagChange.sameOutside_apply (change : FlagChange) (flags : Dword) :
    SameOutside change.flagMask flags (change.apply flags) := by
  cases change with
  | invertCarry =>
    intro i hi
    rw [apply, BitVec.getLsbD_xor, show carry.getLsbD i = false from hi, Bool.xor_false]
  | clearCarry | clearDirection => exact (SameOutside.refl _ flags).assign (by decide) false
  | setCarry | setDirection => exact (SameOutside.refl _ flags).assign (by decide) true

/-! ## Programs that keep flags -/

/-- The flags that belong to a footprint. -/
def Footprint.flagMask (S : Footprint) : Dword :=
  (if .arithmeticFlags ∈ S then arithmetic else 0) |||
    (if .directionFlag ∈ S then direction else 0)

/-- The flags that a program of an effect may change. -/
def Effect.flagMask (e : Effect) : Dword := e.answer.flagMask ||| (e.fault.getD []).flagMask

variable {H : Type}

/-- Two machines that agree up to a footprint agree on the flags that are not in it. -/
theorem Agree.sameOutside [Host H] {permits : H → Dword → List Byte → Prop} {S : Footprint}
    {m m' : Machine H} (h : Agree permits S m m') : SameOutside S.flagMask m.eflags m'.eflags := by
  intro i hi
  refine h.flags i fun hflag => ?_
  rw [Footprint.flagMask, BitVec.getLsbD_or, Bool.or_eq_false_iff] at hi
  rcases hflag with ⟨hmem, hbit⟩ | ⟨hmem, hbit⟩
  · rw [if_pos hmem, hbit] at hi
    cases hi.1
  · rw [if_pos hmem, hbit] at hi
    cases hi.2

namespace Exec

variable {α β : Type} {mask mask' : Dword} {p : Prefixes}

/-- A program changes no flag outside a mask, whether it faults or not. -/
def KeepsFlags (mask : Dword) (x : Exec H α) : Prop :=
  ∀ m, Ends x m (fun _ m' => SameOutside mask m.eflags m'.eflags)
    (fun _ m' => SameOutside mask m.eflags m'.eflags)

namespace KeepsFlags

theorem mono {x : Exec H α} (hx : KeepsFlags mask x) (hm : mask &&& ~~~mask' = 0) :
    KeepsFlags mask' x :=
  fun m => (hx m).mono (fun _ _ h => h.mono hm) fun _ _ h => h.mono hm

/-- Both parts of a sequence keep what is outside the mask, and so does the first alone if it
faults. -/
theorem bind {x : Exec H β} {k : β → Exec H α} (hx : KeepsFlags mask x)
    (hk : ∀ b, KeepsFlags mask (k b)) : KeepsFlags mask (x >>= k) := by
  intro m
  rw [ends_bind]
  refine (hx m).mono (fun b m₁ h₁ => ?_) fun _ _ h => h
  exact (hk b m₁).mono (fun _ _ h => h₁.trans h) fun _ _ h => h₁.trans h

theorem ite {c : Prop} [Decidable c] {x y : Exec H α} (hx : KeepsFlags mask x)
    (hy : KeepsFlags mask y) : KeepsFlags mask (if c then x else y) := by
  split
  · exact hx
  · exact hy

theorem pure (a : α) : KeepsFlags mask (Pure.pure a : Exec H α) := fun m => .refl mask m.eflags

theorem throw (f : Fault) : KeepsFlags mask (MonadExcept.throw f : Exec H α) :=
  fun m => .refl mask m.eflags

/-- What is read off the processor may be used. -/
theorem view {f : Processor → β} {k : β → Exec H α} (hk : ∀ b, KeepsFlags mask (k b)) :
    KeepsFlags mask (Exec.view f >>= k) := fun m => hk (f m.toProcessor) m

theorem update {f : Processor → Processor}
    (hf : ∀ s, SameOutside mask s.eflags (f s).eflags) :
    KeepsFlags mask (Exec.update f : Exec H Unit) := fun m => hf m.toProcessor

theorem updateWith {f : Processor → α × Processor}
    (hf : ∀ s, SameOutside mask s.eflags (f s).2.eflags) :
    KeepsFlags mask (Exec.updateWith f : Exec H α) := fun m => hf m.toProcessor

variable [Host H]

/-- What a program may change is bounded by its effect, of which the footprint of a fault is a part.
-/
theorem of_hasEffect {e : Effect} {x : Exec H α} (hx : HasEffect e x) :
    KeepsFlags e.flagMask x := by
  intro m
  have hall : CoversSegments (fun _ _ _ => True) m := fun _ _ _ _ _ => trivial
  refine (hx hall).mono (fun _ _ h => h.sameOutside.or_left _) fun f m' h => ?_
  obtain ⟨S, hS, ha⟩ := h.fault
  rw [Effect.flagMask, Option.mem_def.mp hS, Option.getD_some]
  exact ha.sameOutside.or_right _

/-- A program whose effect has no flags keeps all of them. -/
theorem free {e : Effect} {x : Exec H α} (hx : HasEffect e x) (he : e.flagMask = 0) :
    KeepsFlags mask x := by
  have hkeeps := of_hasEffect hx
  rw [he] at hkeeps
  exact hkeeps.mono (by simp)

/-- A program that only checks changes no flag at all. -/
theorem checks {e : Effect} [he : e.OnlyChecks] {x : Exec H α} (hx : HasEffect e x) :
    KeepsFlags mask x := free (hx.weaken he.within) (by decide)

/-- A program that only checks comes first. -/
theorem after {e : Effect} [e.OnlyChecks] {x : Exec H β} {k : β → Exec H α} (hx : HasEffect e x)
    (hk : ∀ b, KeepsFlags mask (k b)) : KeepsFlags mask (x >>= k) := bind (checks hx) hk

end KeepsFlags

/-! ## Single steps -/

/-- The flags are set before the result is written, so that a fault of the write leaves them set. -/
theorem alu_keepsFlags (w : Width) (op : AluOp) (a b : Dword) :
    KeepsFlags op.flagMask (alu w op a b : Exec H Dword) :=
  .updateWith fun s => op.sameOutside_apply w s.eflags a b

/-- To write a register sets no flags. -/
theorem aluRegister_keepsFlags (w : Width) (op : AluOp) (r : Reg) (b : Dword) :
    KeepsFlags op.flagMask (aluRegister w op r b : Exec H Unit) := by
  refine .view fun a => .bind (alu_keepsFlags w op a b) fun result => ?_
  exact .ite (.update fun _ => .refl _ _) (.pure ())

theorem testValues_keepsFlags (w : Width) (a b : Dword) :
    KeepsFlags logicMask (testValues w a b : Exec H Unit) :=
  .update fun _ => sameOutside_afterLogic _

/-- The two flags of a product are set to the same value. -/
theorem sameOutside_setCarryOverflow {flags : Dword} {s : Processor}
    (h : SameOutside mask flags s.eflags) (hm : productMask &&& ~~~mask = 0) (on : Bool) :
    SameOutside mask flags (setCarryOverflow on s).eflags :=
  (h.assign (within_trans (by decide) hm) on).assign (within_trans (by decide) hm) on

/-- The pair of registers that holds a product is not the flags. -/
theorem eflags_setAccumulatorPair (w : Width) (low high : Dword) (s : Processor) :
    (setAccumulatorPair w low high s).eflags = s.eflags := by
  cases w <;> rfl

/-- A signed product sets the sign besides. -/
theorem storeProduct_keepsFlags (w : Width) (r : Reg) (a b : Dword) :
    KeepsFlags signedProductMask (storeProduct w r a b : Exec H Unit) := by
  refine .update fun s => sameOutside_setCarryOverflow ?_ (by decide) _
  exact (SameOutside.refl _ s.eflags).assign (by decide) _

/-- A shift without an outcome sets nothing. -/
theorem shiftValue_keepsFlags {f : Dword → Dword → Option Outcome} (value : Dword)
    (hf : ∀ flags outcome, f flags value = some outcome → SameOutside mask flags outcome.flags) :
    KeepsFlags mask (shiftValue f value : Exec H (Option Dword)) := by
  refine .updateWith fun s => ?_
  cases hs : f s.eflags value with
  | some outcome => exact hf s.eflags outcome hs
  | none => exact .refl mask s.eflags

variable [Host H]

/-! ## Arithmetic -/

/-- An operation on an operand in memory sets its flags before the store, so that a store that
faults does not take them back. -/
theorem aluOperand_keepsFlags (p : Prefixes) (w : Width) (op : AluOp) (place : Operand)
    (b : Dword) : KeepsFlags op.flagMask (aluOperand p w op place b : Exec H Unit) := by
  cases place with
  | register r => exact .after (checkLock_hasEffect p) fun _ => aluRegister_keepsFlags w op r b
  | memory seg offset =>
    refine .after (load_observes w seg offset).hasEffect fun a => ?_
    have hstore : KeepsFlags op.flagMask (do
        let result ← alu w op a b
        if op.writesBack then store w seg offset result : Exec H Unit) :=
      .bind (alu_keepsFlags w op a b) fun result =>
        .ite (.free (store_hasEffect w seg offset result) (by decide)) (.pure ())
    exact .ite (.after (checkLock_hasEffect p) fun _ => hstore) hstore

theorem testOperand_keepsFlags (p : Prefixes) (w : Width) (place : Operand) (b : Dword) :
    KeepsFlags logicMask (testOperand p w place b : Exec H Unit) := by
  cases place with
  | register r =>
    exact .after (checkLock_hasEffect p) fun _ => .view fun a => testValues_keepsFlags w a b
  | memory seg offset =>
    refine .after (load_observes w seg offset).hasEffect fun a => ?_
    exact .after (checkLock_hasEffect p) fun _ => testValues_keepsFlags w a b

/-- The same for an operation with one operand. -/
theorem modifyOperand_keepsFlags (p : Prefixes) (w : Width) (place : Operand)
    {f : Dword → Dword → Dword × Dword}
    (hf : ∀ flags value, SameOutside mask flags (f flags value).2) :
    KeepsFlags mask (modifyOperand p w place f : Exec H Unit) := by
  refine .after (checkLockOn_hasEffect p place) fun _ => ?_
  refine .after (readOperand_observes w place).hasEffect fun value => ?_
  refine .bind (.updateWith fun s => hf s.eflags value) fun result => ?_
  exact .free (writeOperand_hasEffect w place result) (by decide)

theorem multiply_keepsFlags (p : Prefixes) (w : Width) (place : Operand) :
    KeepsFlags productMask (multiply p w place : Exec H Unit) := by
  refine .after (checkLock_hasEffect p) fun _ => ?_
  refine .after (readOperand_observes w place).hasEffect fun b => .update fun s => ?_
  refine sameOutside_setCarryOverflow ?_ (by decide) _
  rw [eflags_setAccumulatorPair]
  exact .refl _ _

/-- Products are written into registers, and the flags follow from them. -/
theorem signedMultiply_keepsFlags (p : Prefixes) (w : Width) (place : Operand) :
    KeepsFlags signedProductMask (signedMultiply p w place : Exec H Unit) := by
  refine .after (checkLock_hasEffect p) fun _ => ?_
  refine .after (readOperand_observes w place).hasEffect fun b => .update fun s => ?_
  refine sameOutside_setCarryOverflow (SameOutside.assign ?_ (by decide) _) (by decide) _
  rw [eflags_setAccumulatorPair]
  exact .refl _ _

/-- A division sets no flags, whether it succeeds or not. -/
theorem divideBy_keepsFlags (p : Prefixes) (w : Width) (place : Operand) (name : String)
    (division : Pair → Dword → Except DivisionFailure Division) :
    KeepsFlags mask (divideBy p w place name division : Exec H Unit) := by
  refine .after (checkLock_hasEffect p) fun _ => ?_
  refine .after (readOperand_observes w place).hasEffect fun divisor => .view fun pair => ?_
  cases division pair divisor with
  | ok d =>
    refine .update fun s => ?_
    rw [eflags_setAccumulatorPair]
    exact .refl _ _
  | error failure => exact .after (e := .silent) (.note ..) fun _ => .throw _

theorem setCondition_keepsFlags (p : Prefixes) (code : BitVec 4) :
    KeepsFlags mask (setCondition p code : Exec H Unit) := by
  refine .after (fetchOperand_hasEffect p) fun (mb, place) => ?_
  refine .after (checkLock_hasEffect p) fun _ => .view fun holds => ?_
  exact .free (writeOperand_hasEffect .byte place _) (by decide)

theorem changeFlag_keepsFlags (p : Prefixes) (change : FlagChange) :
    KeepsFlags change.flagMask (changeFlag p change : Exec H Unit) :=
  .after (checkLock_hasEffect p) fun _ => .update fun s => change.sameOutside_apply s.eflags

/-! ## Shifts and bits -/

/-- A shift of an operand sets what the shift of its value sets. -/
theorem shiftOperand_keepsFlags (w : Width) (place : Operand) {f : Dword → Dword → Option Outcome}
    (hf : ∀ flags value outcome, f flags value = some outcome →
      SameOutside mask flags outcome.flags) :
    KeepsFlags mask (shiftOperand w place f : Exec H Unit) := by
  refine .after (readOperand_observes w place).hasEffect fun value => ?_
  refine .bind (shiftValue_keepsFlags value fun flags => hf flags value) fun result? => ?_
  cases result? with
  | none => exact .pure ()
  | some result => exact .free (writeOperand_hasEffect w place result) (by decide)

/-- A scan tells by the zero flag alone whether there was a one. -/
theorem bitScan_keepsFlags (p : Prefixes) (w : Width) (order : ScanOrder) :
    KeepsFlags Flags.zero (bitScan p w order : Exec H Unit) := by
  refine .after (fetchOperand_hasEffect p) fun (mb, place) => ?_
  refine .after (checkLock_hasEffect p) fun _ => ?_
  refine .after (checkRepeatedScan_hasEffect p order) fun _ => ?_
  refine .after (readOperand_observes w place).hasEffect fun value => ?_
  cases scan? w order value with
  | some index =>
    exact .update fun s => (SameOutside.refl _ s.eflags).assign (by decide) false
  | none => exact .update fun s => (SameOutside.refl _ s.eflags).assign (by decide) true

/-- The tested bit goes to carry, before the operand is written back. -/
theorem bitOperand_keepsFlags (w : Width) (op : BitOp) (place : Operand) (index : Nat) :
    KeepsFlags carry (bitOperand w op place index : Exec H Unit) := by
  refine .after (readOperand_observes w place).hasEffect fun value => ?_
  refine .bind (.update fun s => (SameOutside.refl _ s.eflags).assign (by decide) _) fun _ => ?_
  exact .ite (.free (writeOperand_hasEffect w place _) (by decide)) (.pure ())

theorem bitByRegister_keepsFlags (p : Prefixes) (w : Width) (op : BitOp) :
    KeepsFlags carry (bitByRegister p w op : Exec H Unit) := by
  refine .after (fetchOperand_hasEffect p) fun (mb, place) => ?_
  refine .after (checkLockOnBit_hasEffect p op place) fun _ => .view fun k => ?_
  exact bitOperand_keepsFlags w op _ _

/-- Fields of the mode byte that name no operation fault before anything else. -/
theorem bitByImmediate_keepsFlags (p : Prefixes) (w : Width) :
    KeepsFlags carry (bitByImmediate p w : Exec H Unit) := by
  refine .after fetch8_hasEffect fun b => ?_
  extract_lets mb op join
  have hjoin : ∀ u, KeepsFlags carry (join u) := by
    intro u
    refine .after (operand_hasEffect p mb) fun place => .after (fetch_hasEffect .byte) fun k => ?_
    exact .after (checkLockOnBit_hasEffect p op place) fun _ => bitOperand_keepsFlags w op place _
  exact .ite (.bind (.throw _) hjoin) (hjoin ())

theorem swapBytes_keepsFlags (p : Prefixes) (r : Reg) :
    KeepsFlags mask (swapBytes p r : Exec H Unit) :=
  .after (checkLock_hasEffect p) fun _ => .update fun _ => .refl _ _

/-! ## Far transfers -/

/-- A far transfer changes segments, stack and code, but no flags. -/
theorem transferFar_keepsFlags (transfer : Transfer) (w : Width) (selector : Word)
    (offset : Dword) : KeepsFlags mask (transferFar transfer w selector offset : Exec H Unit) := by
  have hkeeps : KeepsFlags 0 (transferFar transfer w selector offset : Exec H Unit) := by
    intro m
    have hdone := transferFar_touches transfer w selector offset m
    have hends := transferFar_ends (.of_all m (.transfer transfer w ⟨selector, offset⟩))
    refine (hdone.and hends).mono (fun _ _ h => Agree.sameOutside h.1) fun _ _ h => ?_
    obtain ⟨S, ⟨⟩, ha⟩ := h.2.fault
    exact ha.sameOutside
  exact hkeeps.mono (by simp)

/-- Nor does the return from one. -/
theorem returnFar_keepsFlags (w : Width) (released : Word) :
    KeepsFlags mask (returnFar w released : Exec H Unit) := by
  have hkeeps : KeepsFlags 0 (returnFar w released : Exec H Unit) := by
    intro m
    have hdone := returnFar_touches w released m
    have hends := returnFar_ends (.of_all m (.ret w released))
    refine (hdone.and hends).mono (fun _ _ h => Agree.sameOutside h.1) fun _ _ h => ?_
    obtain ⟨S, ⟨⟩, ha⟩ := h.2.fault
    exact ha.sameOutside
  exact hkeeps.mono (by simp)

/-! ## The mask of an instruction -/

/-- The flags that an instruction of the one-operand group sets, by the first field of the mode
byte. -/
def unaryMask (field : BitVec 3) : Dword :=
  match field.toNat with
  | 0 | 1 => logicMask
  | 3 => arithmetic
  | 4 => productMask
  | 5 => signedProductMask
  | _ => 0

/-- The flags that the first two instructions of a group set, which add one and take one away. -/
def stepGroupMask (field : BitVec 3) : Dword := if field.toNat < 2 then stepMask else 0

/-- The flags that an instruction may change.  The mode byte and the count of a shift are taken from
the code when they decide. -/
def flagMask (p : Prefixes) : Instruction → Exec H Dword
  | .aluToOperand _ op | .aluToRegister _ op | .aluAccumulator _ op => return op.flagMask
  | .aluImmediate _ _ => do
    let (mb, _) ← fetchOperand p
    return (AluOp.ofBits mb.reg).flagMask
  | .testRegister _ | .testAccumulator _ => return logicMask
  | .incrementRegister _ | .decrementRegister _ => return stepMask
  | .incrementByte | .indirectGroup => do
    let (mb, _) ← fetchOperand p
    return stepGroupMask mb.reg
  | .unaryGroup _ => do
    let (mb, _) ← fetchOperand p
    return unaryMask mb.reg
  | .multiplyRegister | .multiplyImmediate _ => return signedProductMask
  | .changeFlag change => return change.flagMask
  | .shiftGroup _ source => do
    let (mb, _) ← fetchOperand p
    return (ShiftOp.ofBits mb.reg).flagMask (← shiftCount source)
  | .doubleShift _ source => do
    let _ ← fetchOperand p
    return shiftMask (← shiftCount source)
  | .bitScan _ => return Flags.zero
  | .bitByRegister _ | .bitByImmediate => return carry
  | .compareStrings _ | .scanString _ => return arithmetic
  | _ => return 0

/-- A program changes no flag outside the mask that another program finds on the same machine. -/
def MasksFlags (mask : Exec H Dword) (x : Exec H Unit) : Prop :=
  ∀ m, Ends x m (fun _ m' => SameOutside ((value? mask m).getD 0) m.eflags m'.eflags)
    (fun _ m' => SameOutside ((value? mask m).getD 0) m.eflags m'.eflags)

namespace MasksFlags

omit [Host H] in
/-- A mask that does not depend on the code. -/
theorem of_keepsFlags {x : Exec H Unit} (hx : KeepsFlags mask x) :
    MasksFlags (pure mask) x := hx

omit [Host H] in
theorem view {f : Processor → β} {found : Exec H Dword} {k : β → Exec H Unit}
    (hk : ∀ b, MasksFlags found (k b)) : MasksFlags found (Exec.view f >>= k) :=
  fun m => hk (f m.toProcessor) m

omit [Host H] in
/-- The width of the operands does not bear on the mask. -/
theorem widthOf {size : Size} {found : Exec H Dword} {k : Width → Exec H Unit}
    (hk : ∀ w, MasksFlags found (k w)) : MasksFlags found (Exec.widthOf p size >>= k) := by
  cases size with
  | byte => exact hk .byte
  | full => exact view hk

/-- Both programs begin by taking the same operands. -/
theorem after {e : Effect} [e.OnlyChecks] {y : Exec H β} {found : β → Exec H Dword}
    {k : β → Exec H Unit} (hy : HasEffect e y) (hk : ∀ b, MasksFlags (found b) (k b)) :
    MasksFlags (y >>= found) (y >>= k) := by
  intro m
  rw [ends_bind]
  have hkeeps : KeepsFlags 0 y := .checks hy
  refine ((hkeeps m).follow found).mono (fun b m₁ ⟨hvalue, hsame⟩ => ?_) fun _ _ h =>
    h.mono (by simp)
  rw [hvalue]
  have hbefore : SameOutside ((value? (found b) m₁).getD 0) m.eflags m₁.eflags :=
    hsame.mono (by simp)
  exact (hk b m₁).mono (fun _ _ h => hbefore.trans h) fun _ _ h => hbefore.trans h

end MasksFlags

/-- Of the group only the first two members set flags; the others are refused. -/
theorem incrementByte_masks (p : Prefixes) :
    MasksFlags (flagMask p .incrementByte) (incrementByte p : Exec H Unit) := by
  refine .after (fetchOperand_hasEffect p) fun (mb, place) => .of_keepsFlags ?_
  dsimp only
  split
  next h =>
    rw [stepGroupMask, h]
    exact modifyOperand_keepsFlags p .byte place fun _ _ => sameOutside_afterInc _ _
  next h =>
    rw [stepGroupMask, h]
    exact modifyOperand_keepsFlags p .byte place fun _ _ => sameOutside_afterDec _ _
  next => exact .throw _

/-- Its other members are calls, jumps and a push. -/
theorem indirectGroup_masks (p : Prefixes) (w : Width) :
    MasksFlags (flagMask p .indirectGroup) (indirectGroup p w : Exec H Unit) := by
  refine .after (fetchOperand_hasEffect p) fun (mb, place) => .of_keepsFlags ?_
  have hfar : ∀ transfer, KeepsFlags (stepGroupMask mb.reg)
      (farIndirect p w transfer place : Exec H Unit) := fun transfer =>
    .after (loadFarTarget_hasEffect p w place) fun dest =>
      transferFar_keepsFlags transfer w dest.selector dest.offset
  dsimp only [indirectOperand]
  split
  next h =>
    rw [stepGroupMask, h]
    exact modifyOperand_keepsFlags p w place fun _ _ => sameOutside_afterInc _ _
  next h =>
    rw [stepGroupMask, h]
    exact modifyOperand_keepsFlags p w place fun _ _ => sameOutside_afterDec _ _
  next => exact .free (nearIndirect_hasEffect p w .call place) (by decide)
  next => exact hfar .call
  next => exact .free (nearIndirect_hasEffect p w .jump place) (by decide)
  next => exact hfar .jump
  next => exact .free (pushOperand_hasEffect p w place) (by decide)
  next => exact .throw _

/-- Each member of the group has the mask of its own operation. -/
theorem unaryGroup_masks (p : Prefixes) (size : Size) (w : Width) :
    MasksFlags (flagMask p (.unaryGroup size)) (unaryGroup p w : Exec H Unit) := by
  refine .after (fetchOperand_hasEffect p) fun (mb, place) => .of_keepsFlags ?_
  have htest : KeepsFlags logicMask (do testOperand p w place (← fetch w) : Exec H Unit) :=
    .after (fetch_hasEffect w) fun b => testOperand_keepsFlags p w place b
  unfold unaryMask
  dsimp only
  generalize mb.reg.toNat = field
  match field with
  | 0 | 1 => exact htest
  | 2 => exact modifyOperand_keepsFlags p w place fun _ _ => .refl _ _
  | 3 => exact modifyOperand_keepsFlags p w place fun _ _ => sameControl_afterSub _ _ _
  | 4 => exact multiply_keepsFlags p w place
  | 5 => exact signedMultiply_keepsFlags p w place
  | 6 | n + 7 => exact divideBy_keepsFlags p w place _ _

/-- The mask is that of the operation that the mode byte names, for the count that follows. -/
theorem shiftGroup_masks (p : Prefixes) (w : Width) (size : Size) (source : CountSource) :
    MasksFlags (flagMask p (.shiftGroup size source)) (shiftGroup p w source : Exec H Unit) := by
  refine .after (fetchOperand_hasEffect p) fun (mb, place) => ?_
  refine .after (shiftCount_hasEffect source) fun count => .of_keepsFlags ?_
  refine .after (checkLock_hasEffect p) fun _ => shiftOperand_keepsFlags w place ?_
  intro flags value outcome h
  exact ShiftOp.sameOutside_apply h

/-- The same with the count of a double shift. -/
theorem doubleShiftOperand_masks (p : Prefixes) (w : Width) (direction : Direction)
    (source : CountSource) :
    MasksFlags (flagMask p (.doubleShift direction source))
      (doubleShiftOperand p w direction source : Exec H Unit) := by
  refine .after (fetchOperand_hasEffect p) fun (mb, place) => ?_
  refine .after (shiftCount_hasEffect source) fun count => .of_keepsFlags ?_
  refine .after (checkLock_hasEffect p) fun _ => .view fun fill => ?_
  refine shiftOperand_keepsFlags w place ?_
  intro flags value outcome h
  exact sameOutside_doubleShift h

/-- An instruction changes no flag outside its mask. -/
theorem runInstruction_masks (p : Prefixes) (i : Instruction) :
    MasksFlags (flagMask p i) (runInstruction p i : Exec H Unit) := by
  cases i with
  | aluToOperand size op =>
    refine .widthOf fun w => .of_keepsFlags ?_
    refine .after (fetchOperand_hasEffect p) fun (mb, place) => .view fun b => ?_
    exact aluOperand_keepsFlags p w op place b
  | aluToRegister size op =>
    refine .widthOf fun w => .of_keepsFlags ?_
    refine .after (fetchOperand_hasEffect p) fun (mb, place) => ?_
    refine .after (checkLock_hasEffect p) fun _ => ?_
    exact .after (readOperand_observes w place).hasEffect fun b => aluRegister_keepsFlags w op _ b
  | aluAccumulator size op =>
    refine .widthOf fun w => .of_keepsFlags (.after (fetch_hasEffect w) fun b => ?_)
    exact .after (checkLock_hasEffect p) fun _ => aluRegister_keepsFlags w op Reg.eax b
  | aluImmediate size short =>
    refine .widthOf fun w => .after (fetchOperand_hasEffect p) fun (mb, place) => ?_
    refine .of_keepsFlags (.after (fetchImmediate_hasEffect w short) fun b => ?_)
    exact aluOperand_keepsFlags p w (.ofBits mb.reg) place b
  | testRegister size =>
    refine .widthOf fun w => .of_keepsFlags ?_
    refine .after (fetchOperand_hasEffect p) fun (mb, place) => .view fun b => ?_
    exact testOperand_keepsFlags p w place b
  | testAccumulator size =>
    refine .widthOf fun w => .of_keepsFlags (.after (fetch_hasEffect w) fun b => ?_)
    exact .after (checkLock_hasEffect p) fun _ => .view fun a => testValues_keepsFlags w a b
  | incrementRegister r =>
    refine .view fun w => .of_keepsFlags ?_
    exact modifyOperand_keepsFlags p w (.register r) fun _ _ => sameOutside_afterInc _ _
  | decrementRegister r =>
    refine .view fun w => .of_keepsFlags ?_
    exact modifyOperand_keepsFlags p w (.register r) fun _ _ => sameOutside_afterDec _ _
  | incrementByte => exact incrementByte_masks p
  | unaryGroup size => exact .widthOf fun w => unaryGroup_masks p size w
  | indirectGroup => exact .view fun w => indirectGroup_masks p w
  | multiplyRegister =>
    refine .view fun w => .of_keepsFlags ?_
    refine .after (fetchOperand_hasEffect p) fun (mb, place) => ?_
    refine .after (checkLock_hasEffect p) fun _ => ?_
    refine .after (readOperand_observes w place).hasEffect fun b => .view fun a => ?_
    exact storeProduct_keepsFlags w _ a b
  | multiplyImmediate short =>
    refine .view fun w => .of_keepsFlags ?_
    refine .after (fetchOperand_hasEffect p) fun (mb, place) => ?_
    refine .after (fetchImmediate_hasEffect w short) fun b => ?_
    refine .after (checkLock_hasEffect p) fun _ => ?_
    exact .after (readOperand_observes w place).hasEffect fun a => storeProduct_keepsFlags w _ a b
  | setCondition code => exact .of_keepsFlags (setCondition_keepsFlags p code)
  | changeFlag change => exact .of_keepsFlags (changeFlag_keepsFlags p change)
  | shiftGroup size source => exact .widthOf fun w => shiftGroup_masks p w size source
  | doubleShift direction source =>
    exact .view fun w => doubleShiftOperand_masks p w direction source
  | bitScan order => exact .view fun w => .of_keepsFlags (bitScan_keepsFlags p w order)
  | bitByRegister op => exact .view fun w => .of_keepsFlags (bitByRegister_keepsFlags p w op)
  | bitByImmediate => exact .view fun w => .of_keepsFlags (bitByImmediate_keepsFlags p w)
  | swapBytes r => exact .of_keepsFlags (swapBytes_keepsFlags p r)
  | pushRegister r =>
    exact .view fun w => .of_keepsFlags (.free (pushRegister_hasEffect p w r) (by decide))
  | popRegister r =>
    exact .view fun w => .of_keepsFlags (.free (popRegister_hasEffect p w r) (by decide))
  | pushImmediate short =>
    exact .view fun w => .of_keepsFlags (.free (pushImmediate_hasEffect p w short) (by decide))
  | popOperand => exact .view fun w => .of_keepsFlags (.free (popOperand_hasEffect p w) (by decide))
  | pushAll => exact .view fun w => .of_keepsFlags (.free (pushAll_hasEffect p w) (by decide))
  | popAll => exact .view fun w => .of_keepsFlags (.free (popAll_hasEffect p w) (by decide))
  | compareStrings size =>
    refine .widthOf fun w => .of_keepsFlags ?_
    exact (KeepsFlags.of_hasEffect (compareStrings_hasEffect p w)).mono (by decide)
  | scanString size =>
    refine .widthOf fun w => .of_keepsFlags ?_
    exact (KeepsFlags.of_hasEffect (scanString_hasEffect p w)).mono (by decide)
  | jump short => exact .view fun w => .of_keepsFlags (.free (jump_hasEffect p w short) (by decide))
  | jumpIf code short =>
    exact .view fun w => .of_keepsFlags (.free (jumpIf_hasEffect p w code short) (by decide))
  | call => exact .view fun w => .of_keepsFlags (.free (call_hasEffect p w) (by decide))
  | jumpIfCounterZero =>
    exact .view fun w => .of_keepsFlags (.free (jumpIfCounterZero_hasEffect p w) (by decide))
  | ret => exact .view fun w => .of_keepsFlags (.free (ret_hasEffect p w) (by decide))
  | retReleasing =>
    exact .view fun w => .of_keepsFlags (.free (retReleasing_hasEffect p w) (by decide))
  | far transfer =>
    refine .view fun w => .of_keepsFlags (.after (fetchFarTarget_hasEffect p w) fun dest => ?_)
    exact transferFar_keepsFlags transfer w dest.selector dest.offset
  | retFar =>
    refine .view fun w => .of_keepsFlags (.after (checkLock_hasEffect p) fun _ => ?_)
    exact returnFar_keepsFlags w 0
  | retFarReleasing =>
    refine .view fun w => .of_keepsFlags (.after fetchReleased_hasEffect fun bytes => ?_)
    refine .after (checkLock_hasEffect p) fun _ => .bind (returnFar_keepsFlags w bytes) fun _ => ?_
    exact .free (release_hasEffect bytes) (by decide)
  | loop | input | output | inputString | outputString | escape =>
    refine .of_keepsFlags (.free (runInstruction_hasEffect p (Eq.refl false)) ?_)
    dsimp only [Instruction.effect]
    decide
  | wait => exact .of_keepsFlags (.free (wait_hasEffect p) (by decide))

end Exec

/-! ## Steps -/

variable [Host H]

namespace Machine

/-- The flags that the next step may change.  When the operands cannot be taken from the code there
are none. -/
def flagMask (m : Machine H) : Dword :=
  (value? (do
    match ← fetchInstruction with
    | some ⟨p, .ok i⟩ => Exec.flagMask p i
    | _ => return 0) m).getD 0

variable {m m₁ : Machine H} {p : Prefixes} {i : Instruction}

/-- The mask of a step is found after the prefixes and the opcode. -/
theorem Fetches.flagMask_eq (h : m.Fetches p i m₁) :
    m.flagMask = (value? (Exec.flagMask p i) m₁).getD 0 := by
  rw [flagMask, value?_bind_of_ok h.run]

/-- To fetch an instruction sets no flags. -/
theorem Fetches.eflags_eq (h : m.Fetches p i m₁) : m₁.eflags = m.eflags := by
  obtain ⟨eip, log, rfl⟩ := h.moved
  rfl

/-- A step changes no flag outside the mask of its instruction, and none but the flags of arithmetic
and direction in any case. -/
theorem step_keepsFlags (m : Machine H) :
    SameOutside m.flagMask m.eflags m.step.2.eflags ∧
      SameOutside (arithmetic ||| direction) m.eflags m.step.2.eflags := by
  constructor
  · have hruns := m.step_runs
    generalize m.step.1 = ending, m.step.2 = m' at hruns ⊢
    cases hruns with
    | completed hf hr =>
      have hsame := (runInstruction_masks _ _ _).of_ok hr
      rw [hf.flagMask_eq, ← hf.eflags_eq]
      exact hsame
    | fault hf hr =>
      have hsame := (runInstruction_masks _ _ _).of_error hr
      rw [hf.flagMask_eq, ← hf.eflags_eq]
      exact hsame
    | unfetched _ => exact .refl _ _
    | never _ => exact .refl _ _
  · obtain ⟨S, m₁, eip, log, retired, hstep, hagree⟩ := m.step_agrees
    rw [hstep]
    refine (Agree.sameOutside hagree).mono ?_
    unfold Footprint.flagMask
    split <;> split <;> decide

end Machine

end Ia32
