import Ia32.Proofs.ControlTransfers
import Ia32.Proofs.IntegerArithmetic

/-!
# Starting integer instructions

An integer instruction first takes its operands: from the code, from registers and
from memory.  Then it computes (`IntegerOperation`), and nothing that follows
depends on where the operands came from (`Exec.Begins`).  A lock is refused on the
way.  What stands at the instruction pointer is named by `Machine.integerStart?`,
and a step there does what the operation does on the machine that is moved behind
the instruction (`Machine.exists_step_of_start`).  Only an instruction that faults
while it takes its operands has no start (`Machine.exists_start_or_fault`).
-/

namespace Ia32

open Host Exec

variable {H : Type}

/-! ## Operations -/

/-- How the bits of an operand are read as a number. -/
inductive Reading where
  /-- As a natural number. -/
  | unsigned
  /-- In two's complement. -/
  | signed
deriving DecidableEq, Repr

/-- What an integer instruction computes, with the values of its operands. -/
inductive IntegerOperation where
  /-- An operation on two values.  The first one was read at the place of the result. -/
  | alu (w : Width) (op : AluOp) (place : Operand) (a b : Dword)
  /-- Writes whether a condition holds. -/
  | setCondition (code : BitVec 4) (place : Operand)
  /-- Jumps over a distance when a condition holds. -/
  | jumpIf (w : Width) (code : BitVec 4) (distance : Dword)
  /-- The double-width product of the accumulator and a value. -/
  | multiply (w : Width) (reading : Reading) (b : Dword)
  /-- The signed product of two values, for a register. -/
  | storeProduct (w : Width) (r : Reg) (a b : Dword)
  /-- Divides the accumulator pair by a value. -/
  | divide (w : Width) (reading : Reading) (b : Dword)
deriving DecidableEq, Repr

/-- The value that the accumulator is multiplied or divided by lies within the width. -/
def IntegerOperation.FactorFits : IntegerOperation → Prop
  | .multiply w _ b | .divide w _ b => w.truncate b = b
  | _ => True

/-- The processor after its accumulator is multiplied by a value. -/
def Processor.multiplied (s : Processor) (w : Width) (b : Dword) : Reading → Processor
  | .unsigned =>
    let product := w.product (s.reg w Reg.eax) b
    setCarryOverflow (product.high != 0) (setAccumulatorPair w product.low product.high s)
  | .signed =>
    let a := s.reg w Reg.eax
    let product := w.signedProduct a b
    setCarryOverflow (w.signedProductOverflows a b)
      ((setAccumulatorPair w product.low product.high s).setFlag Flags.sign
        (w.isNegative product.low))

/-- The quotient and the remainder of a pair. -/
def Reading.divide : Reading → Width → Pair → Dword → Except DivisionFailure Division
  | .unsigned => Width.divide
  | .signed => Width.signedDivide

/-- The name of a division in messages. -/
def Reading.divisionName : Reading → String
  | .unsigned => "DIV"
  | .signed => "IDIV"

/-- A register has no bits above its width. -/
theorem Processor.truncate_reg (s : Processor) (w : Width) (r : Reg) :
    w.truncate (s.reg w r) = s.reg w r := by
  cases w with
  | dword => exact Width.truncate_dword _
  | word => exact Width.truncate_truncate .word _
  | byte =>
    by_cases hr : r < 4
    · have hlow : s.reg .byte r = Width.byte.truncate (s.regs.get r) := if_pos hr
      rw [hlow, Width.truncate_truncate]
    · have hsecond : s.reg .byte r = Width.byte.truncate (s.regs.get (r - 4) >>> 8) := if_neg hr
      rw [hsecond, Width.truncate_truncate]

namespace Exec

/-- Divides the accumulator pair by a value. -/
def divideValue (p : Prefixes) (w : Width) (reading : Reading) (b : Dword) : Exec H Unit := do
  match reading.divide w (← view (accumulatorPair w)) b with
  | .ok d => update (setAccumulatorPair w d.quotient d.remainder)
  | .error failure =>
    note .faults .debug fun _ => divisionMessage p w reading.divisionName failure
    throw .divideError

variable [Host H]

/-- Runs an operation. -/
def runOperation (p : Prefixes) : IntegerOperation → Exec H Unit
  | .alu w op place a b => do
    let result ← alu w op a b
    if op.writesBack then writeOperand w place result
  | .setCondition code place => do
    let holds ← view fun s => Flags.condition s.eflags code
    writeOperand .byte place (if holds then 1 else 0)
  | .jumpIf w code distance => do
    if ← view fun s => Flags.condition s.eflags code then jumpBy w distance
  | .multiply w reading b => update (·.multiplied w b reading)
  | .storeProduct w r a b => storeProduct w r a b
  | .divide w reading b => divideValue p w reading b

/-! ## Operands -/

/-- Takes the first operand of an operation on two values. -/
def takeAlu (p : Prefixes) (w : Width) (op : AluOp) (place : Operand) (b : Dword) :
    Exec H IntegerOperation := do
  match place with
  | .register r =>
    checkLock p
    return .alu w op place (← view (·.reg w r)) b
  | .memory seg offset =>
    let a ← load w seg offset
    if !op.writesBack then checkLock p
    return .alu w op place a b

/-- Takes the operand of a product or of a quotient. -/
def takeFactor (p : Prefixes) (w : Width) (place : Operand) : Exec H Dword := do
  checkLock p
  readOperand w place

/-- Takes the operand of a product or of a quotient of the accumulator, which the mode byte
selects. -/
def takeUnary (p : Prefixes) (w : Width) (mode : ModeByte) (place : Operand) :
    Exec H (Option IntegerOperation) := do
  match mode.reg.toNat with
  | 0 | 1 | 2 | 3 => return none
  | 4 => return some (.multiply w .unsigned (← takeFactor p w place))
  | 5 => return some (.multiply w .signed (← takeFactor p w place))
  | 6 => return some (.divide w .unsigned (← takeFactor p w place))
  | _ => return some (.divide w .signed (← takeFactor p w place))

/-- Takes the operands of an integer instruction.  The answer is none for another one. -/
def takeOperation (p : Prefixes) : Instruction → Exec H (Option IntegerOperation)
  | .aluToOperand size op => do
    let w ← widthOf p size
    let (mode, place) ← fetchOperand p
    return some (← takeAlu p w op place (← view (·.reg w mode.firstRegister)))
  | .aluToRegister size op => do
    let w ← widthOf p size
    let (mode, place) ← fetchOperand p
    let b ← takeFactor p w place
    let a ← view (·.reg w mode.firstRegister)
    return some (.alu w op (.register mode.firstRegister) a b)
  | .aluAccumulator size op => do
    let w ← widthOf p size
    let b ← fetch w
    return some (← takeAlu p w op (.register Reg.eax) b)
  | .aluImmediate size short => do
    let w ← widthOf p size
    let (mode, place) ← fetchOperand p
    let b ← fetchImmediate w short
    return some (← takeAlu p w (.ofBits mode.reg) place b)
  | .setCondition code => do
    let (_, place) ← fetchOperand p
    checkLock p
    return some (.setCondition code place)
  | .jumpIf code short => do
    let w ← operandWidth p
    checkLock p
    return some (.jumpIf w code (← fetchDistance w short))
  | .unaryGroup size => do
    let w ← widthOf p size
    let (mode, place) ← fetchOperand p
    takeUnary p w mode place
  | .multiplyRegister => do
    let w ← operandWidth p
    let (mode, place) ← fetchOperand p
    let b ← takeFactor p w place
    return some (.storeProduct w mode.firstRegister (← view (·.reg w mode.firstRegister)) b)
  | .multiplyImmediate short => do
    let w ← operandWidth p
    let (mode, place) ← fetchOperand p
    let b ← fetchImmediate w short
    return some (.storeProduct w mode.firstRegister (← takeFactor p w place) b)
  | _ => return none

theorem takeAlu_hasEffect (p : Prefixes) (w : Width) (op : AluOp) (place : Operand) (b : Dword) :
    HasEffect .checks (takeAlu p w op place b : Exec H IntegerOperation) := by
  cases place with
  | register r => exact .andThen (checkLock_hasEffect p) fun _ => .skip (.view _) fun _ => .pure _
  | memory seg offset =>
    refine .andThen (load_observes w seg offset).hasEffect fun a => ?_
    exact .when (checkLock_hasEffect p) (fun _ => .pure _) (.pure _)

theorem takeFactor_hasEffect (p : Prefixes) (w : Width) (place : Operand) :
    HasEffect .checks (takeFactor p w place : Exec H Dword) :=
  .andThen (checkLock_hasEffect p) fun _ =>
    (readOperand_observes w place).hasEffect.weaken (by decide)

theorem takeUnary_hasEffect (p : Prefixes) (w : Width) (mode : ModeByte) (place : Operand) :
    HasEffect .checks (takeUnary p w mode place : Exec H (Option IntegerOperation)) := by
  unfold takeUnary
  split
  case h_1 | h_2 | h_3 | h_4 => exact .pure _
  all_goals exact (takeFactor_hasEffect p w place).map _

theorem takeOperation_hasEffect (p : Prefixes) (i : Instruction) :
    HasEffect .checks (takeOperation p i : Exec H (Option IntegerOperation)) := by
  cases i with
  | aluToOperand size op =>
    refine .skip (widthOf_hasEffect p size) fun w => .andThen (fetchOperand_hasEffect p) fun _ => ?_
    exact .skip (.view _) fun b => (takeAlu_hasEffect p w op _ b).map _
  | aluToRegister size op =>
    refine .skip (widthOf_hasEffect p size) fun w => .andThen (fetchOperand_hasEffect p) fun _ => ?_
    exact .andThen (takeFactor_hasEffect p w _) fun b => .skip (.view _) fun _ => .pure _
  | aluAccumulator size op =>
    refine .skip (widthOf_hasEffect p size) fun w => .andThen (fetch_hasEffect w) fun b => ?_
    exact (takeAlu_hasEffect p w op _ b).map _
  | aluImmediate size short =>
    refine .skip (widthOf_hasEffect p size) fun w => .andThen (fetchOperand_hasEffect p) fun _ => ?_
    refine .andThen (fetchImmediate_hasEffect w short) fun b => ?_
    exact (takeAlu_hasEffect p w _ _ b).map _
  | setCondition code =>
    exact .andThen (fetchOperand_hasEffect p) fun _ => (checkLock_hasEffect p).map _
  | jumpIf code short =>
    refine .skip (operandWidth_hasEffect p) fun w => .andThen (checkLock_hasEffect p) fun _ => ?_
    exact .andThen (fetchDistance_hasEffect w short) fun _ => .pure _
  | unaryGroup size =>
    refine .skip (widthOf_hasEffect p size) fun w => .andThen (fetchOperand_hasEffect p) fun _ => ?_
    exact takeUnary_hasEffect p w _ _
  | multiplyRegister =>
    refine .skip (operandWidth_hasEffect p) fun w => .andThen (fetchOperand_hasEffect p) fun _ => ?_
    exact .andThen (takeFactor_hasEffect p w _) fun b => .skip (.view _) fun _ => .pure _
  | multiplyImmediate short =>
    refine .skip (operandWidth_hasEffect p) fun w => .andThen (fetchOperand_hasEffect p) fun _ => ?_
    refine .andThen (fetchImmediate_hasEffect w short) fun b => ?_
    exact (takeFactor_hasEffect p w _).map _
  | _ => exact .pure _

/-! ## Taking operands and going on -/

variable {p : Prefixes} {m m₁ : Machine H} {o : IntegerOperation} {w : Width} {op : AluOp}
  {place : Operand} {b : Dword}

/-- A program takes operands, or faults while it takes them, and goes on with the operation. -/
def Begins (p : Prefixes) (take : Exec H (Option IntegerOperation)) (whole : Exec H Unit) : Prop :=
  ∀ m, Ends take m
    (fun taken m₁ => ∀ o ∈ taken, o.FactorFits ∧ whole.run m = (runOperation p o).run m₁)
    fun f m₁ => whole.run m = .error f m₁

namespace Begins

theorem other (whole : Exec H Unit) : Begins p (pure none) whole := fun _ _ ho => nomatch ho

theorem operation (h : o.FactorFits) :
    Begins p (pure (some o)) (runOperation p o : Exec H Unit) := by
  rintro m _ ⟨⟩
  exact ⟨h, rfl⟩

/-- What both programs do first can be left out. -/
theorem bind_of_run {β : Type} {x : Exec H β} {take : β → Exec H (Option IntegerOperation)}
    {whole : β → Exec H Unit}
    (h : ∀ {b m m₁}, x.run m = .ok b m₁ → Begins p (take b) (whole b)) :
    Begins p (x >>= take) (x >>= whole) := by
  intro m
  simp only [Ends, EStateM.run_bind]
  cases hx : x.run m with
  | ok b m₁ => exact h hx m₁
  | error f m₁ => exact rfl

theorem bind {β : Type} {x : Exec H β} {take : β → Exec H (Option IntegerOperation)}
    {whole : β → Exec H Unit} (h : ∀ b, Begins p (take b) (whole b)) :
    Begins p (x >>= take) (x >>= whole) :=
  bind_of_run fun {b} _ _ _ => h b

end Begins

theorem truncate_of_readOperand (h : (readOperand w place).run m = .ok b m₁) :
    w.truncate b = b := by
  cases place with
  | register r =>
    obtain ⟨rfl, rfl⟩ : _ ∧ _ := EStateM.Result.ok.inj h
    exact Processor.truncate_reg _ w r
  | memory seg offset =>
    have hlt : b.toNat < Nat.pow 256 w.bytes := (load_lt w seg offset m).of_ok h
    have hpow : Nat.pow 256 w.bytes = 2 ^ w.bits := by cases w <;> rfl
    apply BitVec.eq_of_toNat_eq
    rw [Width.toNat_truncate]
    exact Nat.mod_eq_of_lt (hpow ▸ hlt)

/-- A factor is taken before it is multiplied or divided by. -/
theorem takeFactor_begins (p : Prefixes) (w : Width) (place : Operand)
    {take : Dword → Exec H (Option IntegerOperation)} {whole : Dword → Exec H Unit}
    (h : ∀ b, w.truncate b = b → Begins p (take b) (whole b)) :
    Begins p (takeFactor p w place >>= take)
      (do checkLock p; let b ← readOperand w place; whole b) := by
  rw [takeFactor, bind_assoc]
  exact .bind fun _ => .bind_of_run fun hread => h _ (truncate_of_readOperand hread)

theorem aluRegister_begins (p : Prefixes) (w : Width) (op : AluOp) (r : Reg) (b : Dword) :
    Begins p (do return some (.alu w op (.register r) (← view (·.reg w r)) b) : Exec H _)
      (aluRegister w op r b) :=
  .bind fun _ => .operation trivial

theorem aluOperand_begins (p : Prefixes) (w : Width) (op : AluOp) (place : Operand) (b : Dword) :
    Begins p (do return some (← takeAlu p w op place b) : Exec H _)
      (aluOperand p w op place b) := by
  cases place with
  | register r =>
    simp only [takeAlu, bind_assoc, pure_bind]
    exact .bind fun _ => aluRegister_begins p w op r b
  | memory seg offset =>
    simp only [takeAlu, bind_assoc]
    refine .bind fun a => ?_
    have hgo : Begins p (pure (some (.alu w op (.memory seg offset) a b)) : Exec H _)
        (do let result ← alu w op a b; if op.writesBack then store w seg offset result) :=
      .operation trivial
    cases hback : op.writesBack with
    | true =>
      rw [hback] at hgo
      exact hgo
    | false =>
      rw [hback] at hgo
      simp only [Bool.not_false, if_true, bind_assoc, pure_bind]
      exact .bind fun _ => hgo

theorem unaryGroup_begins (p : Prefixes) (w : Width) :
    Begins p (do let (mode, place) ← fetchOperand p; takeUnary p w mode place : Exec H _)
      (unaryGroup p w) := by
  refine .bind fun (mode, place) => ?_
  have hlt : mode.reg.toNat < 8 := mode.reg.isLt
  dsimp only
  unfold takeUnary
  match hfield : mode.reg.toNat, hlt with
  | 0, _ | 1, _ | 2, _ | 3, _ => exact .other _
  | 4, _ | 5, _ | 6, _ | 7, _ =>
    exact takeFactor_begins p w place fun b hb => .operation hb

/-- An instruction takes its operands and then computes its operation. -/
theorem runInstruction_begins (p : Prefixes) (i : Instruction) :
    Begins p (takeOperation p i : Exec H _) (runInstruction p i) := by
  cases i with
  | aluToOperand size op =>
    exact .bind fun w => .bind fun (mode, place) => .bind fun b => aluOperand_begins p w op place b
  | aluToRegister size op =>
    refine .bind fun w => .bind fun (mode, place) => takeFactor_begins p w place fun b _ => ?_
    exact aluRegister_begins p w op mode.firstRegister b
  | aluAccumulator size op =>
    exact .bind fun w => .bind fun b => aluOperand_begins p w op (.register Reg.eax) b
  | aluImmediate size short =>
    refine .bind fun w => .bind fun (mode, place) => .bind fun b => ?_
    exact aluOperand_begins p w (.ofBits mode.reg) place b
  | setCondition code => exact .bind fun _ => .bind fun _ => .operation trivial
  | jumpIf code short =>
    exact .bind fun w => .bind fun _ => .bind fun distance => .operation trivial
  | unaryGroup size => exact .bind fun w => unaryGroup_begins p w
  | multiplyRegister =>
    refine .bind fun w => .bind fun (mode, place) => takeFactor_begins p w place fun b _ => ?_
    exact .bind fun _ => .operation trivial
  | multiplyImmediate short =>
    refine .bind fun w => .bind fun (mode, place) => .bind fun b => ?_
    exact takeFactor_begins p w place fun a _ => .operation trivial
  | _ => exact .other _

end Exec

/-! ## Starts -/

/-- An integer instruction that has taken its operands. -/
structure IntegerStart where
  /-- The markers before it. -/
  markers : Prefixes
  /-- What it computes. -/
  operation : IntegerOperation
  /-- The offset behind it. -/
  next : Dword
deriving DecidableEq, Repr

variable [Host H] {m m₁ m₂ : Machine H} {start : IntegerStart}

/-- Takes an integer instruction from the code, and its operands.  The answer is none for
another instruction. -/
def Exec.fetchIntegerStart : Exec H (Option IntegerStart) := do
  match ← fetchInstruction with
  | some ⟨p, .ok i⟩ =>
    match ← takeOperation p i with
    | some o => return some ⟨p, o, ← view (·.eip)⟩
    | none => return none
  | _ => return none

/-- The integer instruction at the instruction pointer, with its operands. -/
def Machine.integerStart? (m : Machine H) : Option IntegerStart :=
  (value? fetchIntegerStart m).join

/-- A machine takes an integer instruction from the code, and then its operands. -/
structure Machine.StartsInteger (m : Machine H) (start : IntegerStart) (i : Instruction)
    (m₁ m₂ : Machine H) : Prop where
  fetches : m.Fetches start.markers i m₁
  takes : (takeOperation start.markers i).run m₁ = .ok (some start.operation) m₂
  moved : ∃ log, m₂ = { m with eip := start.next, log := log }

namespace Machine

theorem exists_startsInteger (h : m.integerStart? = some start) :
    ∃ i m₁ m₂, m.StartsInteger start i m₁ m₂ := by
  obtain ⟨m', hrun⟩ := value?_eq_some_iff.1 (Option.join_eq_some_iff.1 h)
  obtain ⟨decoded, m₁, hfetch, hrun⟩ := run_bind_eq_ok_iff.1 hrun
  have hmoved := (fetchInstruction_moves m).of_ok hfetch
  split at hrun
  next p i =>
    obtain ⟨taken, m₂, htaken, hrun⟩ := run_bind_eq_ok_iff.1 hrun
    split at hrun
    next o =>
      rw [run_view_bind] at hrun
      obtain ⟨ho, rfl⟩ : _ ∧ _ := EStateM.Result.ok.inj hrun
      obtain rfl := Option.some.inj ho
      refine ⟨i, m₁, m₂, ⟨hfetch, hmoved⟩, htaken, ?_⟩
      obtain ⟨eip, log, rfl⟩ := hmoved
      obtain ⟨eip', log', rfl⟩ := (takeOperation_hasEffect p i).moved rfl htaken
      exact ⟨log', rfl⟩
    next => cases hrun
  next => cases hrun

/-- An instruction that takes operands has a start, unless it faults while it takes them. -/
theorem exists_start_or_fault {p : Prefixes} {i : Instruction} (hf : m.Fetches p i m₁)
    (hi : ∀ m₂, (takeOperation p i).run m₁ ≠ .ok none m₂) :
    (∃ o next, m.integerStart? = some ⟨p, o, next⟩) ∨ ∃ f m', m.step = (.fault f, m') := by
  have hbegins := runInstruction_begins p i m₁
  cases htake : (takeOperation p i).run m₁ with
  | error f m₂ =>
    obtain ⟨log, hstep⟩ := exists_step_of_error hf (hbegins.of_error htake)
    exact .inr ⟨f, _, hstep⟩
  | ok taken m₂ =>
    cases taken with
    | none => exact absurd htake (hi m₂)
    | some o =>
      have hstart : fetchIntegerStart.run m = .ok (some ⟨p, o, m₂.eip⟩) m₂ := by
        rw [fetchIntegerStart, run_bind_of_ok hf.run]
        exact run_bind_of_ok htake _
      exact .inl ⟨o, m₂.eip, Option.join_eq_some_iff.2 (value?_of_ok hstart)⟩

/-- A start fixes how the step goes on. -/
theorem StartsInteger.ends {i : Instruction} (h : m.StartsInteger start i m₁ m₂) :
    start.operation.FactorFits ∧
      (runInstruction start.markers i).run m₁ =
        (runOperation start.markers start.operation).run m₂ :=
  (runInstruction_begins start.markers i m₁).of_ok h.takes start.operation rfl

/-- The value that an instruction multiplies or divides by lies within its width. -/
theorem factorFits (h : m.integerStart? = some start) : start.operation.FactorFits := by
  obtain ⟨i, m₁, m₂, hs⟩ := exists_startsInteger h
  exact hs.ends.1

/-- A step does what the operation does on the machine that is moved behind the instruction. -/
theorem exists_step_of_start (h : m.integerStart? = some start) :
    ∃ log, (∀ m', (runOperation start.markers start.operation).run
          { m with eip := start.next, log := log } = .ok () m' →
        m.step = (.completed, { m' with retired := m'.retired + 1 })) ∧
      ∀ f m', (runOperation start.markers start.operation).run
          { m with eip := start.next, log := log } = .error f m' →
        ∃ log', m.step = (.fault f, { m' with eip := m.eip, log := log' }) := by
  obtain ⟨i, m₁, m₂, hs⟩ := exists_startsInteger h
  obtain ⟨-, hrun⟩ := hs.ends
  obtain ⟨log, rfl⟩ := hs.moved
  exact ⟨log, fun m' hok => step_of_run hs.fetches (hrun.trans hok),
    fun f m' herror => exists_step_of_error hs.fetches (hrun.trans herror)⟩

end Machine

end Ia32
