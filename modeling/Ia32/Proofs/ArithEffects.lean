import Ia32.Instr.Arith
import Ia32.Instr.Bitwise
import Ia32.Proofs.Access
import Ia32.Proofs.ArithmeticFlags

/-!
# Effects of arithmetic

Arithmetic, shifts and bit instructions read their operands, set flags and then
write.  When the write is refused the flags are set already, and nothing else has
happened.
-/

namespace Ia32

/-- The effect of an instruction that computes an operand: it sets flags, and then writes a
register or a place in memory. -/
def Effect.computes : Effect :=
  ⟨[.registers, .arithmeticFlags, .memory], some [.arithmeticFlags, .tornMemory], some []⟩

instance Effect.mayRefuse_computes : Effect.MayRefuse .computes :=
  mayRefuse_mk [.registers, .arithmeticFlags, .memory] [.arithmeticFlags, .tornMemory] []

namespace Exec

open Host

variable {H : Type} [Host H]

/-! ## Flags -/

/-- Flags that agree on control differ in the arithmetic flags at most. -/
theorem flags_agree {permits : H → Dword → List Byte → Prop} (m : Machine H) {eflags : Dword}
    (h : Flags.SameControl m.eflags eflags) :
    Agree permits [.arithmeticFlags] m { m with eflags := eflags } := by
  refine .ofFlags _ m eflags fun i hi => h i ?_
  simpa [Footprint.HasFlag] using hi

/-- To set an arithmetic flag is such a change. -/
theorem setFlag_agree {permits : H → Dword → List Byte → Prop} (m : Machine H) {mask : Dword}
    (hm : mask &&& ~~~Flags.arithmetic = 0) (on : Bool) :
    Agree permits [.arithmeticFlags] m { m with toProcessor := m.toProcessor.setFlag mask on } :=
  flags_agree m ((Flags.SameControl.refl m.eflags).assign hm on)

/-- What a program that computes may do to the processor alone. -/
abbrev Computed (m : Machine H) (s : Processor) : Prop :=
  ∀ permits, Agree permits [.registers, .arithmeticFlags] m { m with toProcessor := s }

namespace Computed

variable {m : Machine H} {s : Processor}

theorem refl (m : Machine H) : Computed m m.toProcessor := fun _ => .refl _ m

/-- A register may be written after the rest was computed. -/
theorem setReg (h : Computed m s) (w : Width) (r : Reg) (value : Dword) :
    Computed m (s.setReg w r value) := fun permits =>
  (h permits).trans ((setReg_agree { m with toProcessor := s } w r value).mono (by decide))

theorem setFlag (h : Computed m s) {mask : Dword} (hm : mask &&& ~~~Flags.arithmetic = 0)
    (on : Bool) : Computed m (s.setFlag mask on) := fun permits =>
  (h permits).trans ((setFlag_agree { m with toProcessor := s } hm on).mono (by decide))

theorem setCarryOverflow (h : Computed m s) (on : Bool) :
    Computed m (setCarryOverflow on s) :=
  (h.setFlag (by decide) on).setFlag (by decide) on

/-- A pair is one register for bytes, and two for wider operands. -/
theorem setAccumulatorPair (h : Computed m s) (w : Width) (low high : Dword) :
    Computed m (setAccumulatorPair w low high s) := by
  cases w <;> exact (h.setReg _ _ low).setReg _ _ high

end Computed

/-- An update that computes changes registers and arithmetic flags, and does not fault. -/
theorem computed_hasEffect {f : Processor → Processor}
    (h : ∀ m : Machine H, Computed m (f m.toProcessor)) :
    HasEffect (.changes [.registers, .arithmeticFlags]) (update f : Exec H Unit) :=
  .update fun permits m => h m permits

/-! ## Two operands -/

/-- An operation on two values sets flags, and leaves it to others to write the result. -/
theorem alu_hasEffect (w : Width) (op : AluOp) (a b : Dword) :
    HasEffect (.changes [.arithmeticFlags]) (alu w op a b : Exec H Dword) :=
  .updateWith fun _ m => flags_agree m (op.sameControl_apply w m.eflags a b)

/-- A test writes no result at all. -/
theorem testValues_hasEffect (w : Width) (a b : Dword) :
    HasEffect (.changes [.arithmeticFlags]) (testValues w a b : Exec H Unit) :=
  .update fun _ m => flags_agree m (Flags.sameControl_afterLogic _)

/-- A comparison writes nothing either, so that the effect is a bound. -/
theorem aluRegister_hasEffect (w : Width) (op : AluOp) (r : Reg) (b : Dword) :
    HasEffect .computes (aluRegister w op r b : Exec H Unit) := by
  refine .skip (.view _) fun a => ?_
  exact .bind (alu_hasEffect w op a b) (fun result => .ite (setReg_hasEffect w r result) (.pure _))
    (by decide)

/-- An operand in memory is read before a lock is refused, and the flags are set before it is
written. -/
theorem aluOperand_hasEffect (p : Prefixes) (w : Width) (op : AluOp) (place : Operand) (b : Dword) :
    HasEffect .computes (aluOperand p w op place b : Exec H Unit) := by
  cases place with
  | register r =>
    exact .andThen (checkLock_hasEffect p) fun _ => aluRegister_hasEffect w op r b
  | memory seg offset =>
    refine .andThen (load_observes w seg offset).hasEffect fun a => ?_
    have hs : HasEffect .computes (do
        let result ← alu w op a b
        if op.writesBack then store w seg offset result : Exec H Unit) :=
      .bind (alu_hasEffect w op a b)
        (fun result => .ite (store_hasEffect w seg offset result) (.pure _)) (by decide)
    exact .when (checkLock_hasEffect p) (fun _ => hs) hs

theorem aluToOperand_hasEffect (p : Prefixes) (w : Width) (op : AluOp) :
    HasEffect .computes (aluToOperand p w op : Exec H Unit) := by
  refine .andThen (fetchOperand_hasEffect p) fun ⟨m, place⟩ => ?_
  exact .skip (.view _) fun b => aluOperand_hasEffect p w op place b

theorem aluToRegister_hasEffect (p : Prefixes) (w : Width) (op : AluOp) :
    HasEffect .computes (aluToRegister p w op : Exec H Unit) := by
  refine .andThen (fetchOperand_hasEffect p) fun ⟨m, place⟩ => ?_
  refine .andThen (checkLock_hasEffect p) fun _ => ?_
  refine .andThen (readOperand_observes w place).hasEffect fun b => ?_
  exact aluRegister_hasEffect w op m.firstRegister b

theorem aluAccumulator_hasEffect (p : Prefixes) (w : Width) (op : AluOp) :
    HasEffect .computes (aluAccumulator p w op : Exec H Unit) := by
  refine .andThen (fetch_hasEffect w) fun value => ?_
  refine .andThen (checkLock_hasEffect p) fun _ => ?_
  exact aluRegister_hasEffect w op Reg.eax value

/-- The immediate value follows the operand in the code, and both are taken before anything is
set. -/
theorem aluImmediate_hasEffect (p : Prefixes) (w : Width) (short : Bool) :
    HasEffect .computes (aluImmediate p w short : Exec H Unit) := by
  refine .andThen (fetchOperand_hasEffect p) fun ⟨m, place⟩ => ?_
  refine .andThen (fetchImmediate_hasEffect w short) fun value => ?_
  exact aluOperand_hasEffect p w _ place value

/-! ## Tests -/

/-- A test reads its operand and does not write it. -/
theorem testOperand_hasEffect (p : Prefixes) (w : Width) (place : Operand) (b : Dword) :
    HasEffect .computes (testOperand p w place b : Exec H Unit) := by
  cases place with
  | register r =>
    refine .andThen (checkLock_hasEffect p) fun _ => .skip (.view _) fun a => ?_
    exact (testValues_hasEffect w a b).weaken (by decide)
  | memory seg offset =>
    refine .andThen (load_observes w seg offset).hasEffect fun a => ?_
    refine .andThen (checkLock_hasEffect p) fun _ => ?_
    exact (testValues_hasEffect w a b).weaken (by decide)

theorem testRegister_hasEffect (p : Prefixes) (w : Width) :
    HasEffect .computes (testRegister p w : Exec H Unit) := by
  refine .andThen (fetchOperand_hasEffect p) fun ⟨m, place⟩ => ?_
  exact .skip (.view _) fun b => testOperand_hasEffect p w place b

theorem testAccumulator_hasEffect (p : Prefixes) (w : Width) :
    HasEffect .computes (testAccumulator p w : Exec H Unit) := by
  refine .andThen (fetch_hasEffect w) fun value => ?_
  refine .andThen (checkLock_hasEffect p) fun _ => .skip (.view _) fun a => ?_
  exact (testValues_hasEffect w a value).weaken (by decide)

/-! ## One operand -/

/-- A function of a value and the flags that sets the flags of arithmetic alone. -/
abbrev SetsArithmetic (f : Dword → Dword → Dword × Dword) : Prop :=
  ∀ flags value, Flags.SameControl flags (f flags value).2

/-- What puts carry back has set no more than arithmetic flags. -/
theorem setsArithmetic_increment (w : Width) : SetsArithmetic (increment w) :=
  fun _ _ => Flags.sameControl_afterInc _ _

theorem setsArithmetic_decrement (w : Width) : SetsArithmetic (decrement w) :=
  fun _ _ => Flags.sameControl_afterDec _ _

theorem setsArithmetic_negate (w : Width) : SetsArithmetic (negate w) :=
  fun _ _ => Flags.sameControl_afterSub _ _ _

/-- A complement sets no flags at all. -/
theorem setsArithmetic_complement (w : Width) : SetsArithmetic (complement w) :=
  fun flags _ => .refl flags

/-- An operation that replaces its operand reads it, sets flags and writes it. -/
theorem modifyOperand_hasEffect (p : Prefixes) (w : Width) (place : Operand)
    {f : Dword → Dword → Dword × Dword} (hf : SetsArithmetic f) :
    HasEffect .computes (modifyOperand p w place f : Exec H Unit) := by
  refine .andThen (checkLockOn_hasEffect p place) fun _ => ?_
  refine .andThen (readOperand_observes w place).hasEffect fun value => ?_
  have hu : HasEffect (.changes [.arithmeticFlags]) (unary f value : Exec H Dword) :=
    .updateWith fun _ m => flags_agree m (hf m.eflags value)
  exact .bind hu (fun result => writeOperand_hasEffect w place result) (by decide)

/-- Members of the group that are not there are refused after the operand is taken. -/
theorem incrementByte_hasEffect (p : Prefixes) :
    HasEffect .computes (incrementByte p : Exec H Unit) := by
  refine .andThen (fetchOperand_hasEffect p) fun ⟨m, place⟩ => ?_
  dsimp only
  split
  · exact modifyOperand_hasEffect p .byte place (setsArithmetic_increment .byte)
  · exact modifyOperand_hasEffect p .byte place (setsArithmetic_decrement .byte)
  · exact HasEffect.throw.weaken (by decide)

/-! ## Products and quotients -/

/-- A product goes to a pair of registers, and cannot fault once its factor is read. -/
theorem multiply_hasEffect (p : Prefixes) (w : Width) (place : Operand) :
    HasEffect .computes (multiply p w place : Exec H Unit) := by
  refine .andThen (checkLock_hasEffect p) fun _ => ?_
  refine .andThen (readOperand_observes w place).hasEffect fun b => ?_
  refine (computed_hasEffect fun m => ?_).weaken (by decide)
  exact ((Computed.refl m).setAccumulatorPair w _ _).setCarryOverflow _

theorem signedMultiply_hasEffect (p : Prefixes) (w : Width) (place : Operand) :
    HasEffect .computes (signedMultiply p w place : Exec H Unit) := by
  refine .andThen (checkLock_hasEffect p) fun _ => ?_
  refine .andThen (readOperand_observes w place).hasEffect fun b => ?_
  refine (computed_hasEffect fun m => ?_).weaken (by decide)
  exact (((Computed.refl m).setAccumulatorPair w _ _).setFlag (by decide) _).setCarryOverflow _

theorem storeProduct_hasEffect (w : Width) (r : Reg) (a b : Dword) :
    HasEffect .computes (storeProduct w r a b : Exec H Unit) := by
  refine (computed_hasEffect fun m => ?_).weaken (by decide)
  exact (((Computed.refl m).setReg w r _).setFlag (by decide) _).setCarryOverflow _

theorem multiplyRegister_hasEffect (p : Prefixes) (w : Width) :
    HasEffect .computes (multiplyRegister p w : Exec H Unit) := by
  refine .andThen (fetchOperand_hasEffect p) fun ⟨m, place⟩ => ?_
  refine .andThen (checkLock_hasEffect p) fun _ => ?_
  refine .andThen (readOperand_observes w place).hasEffect fun b => ?_
  exact .skip (.view _) fun a => storeProduct_hasEffect w m.firstRegister a b

theorem multiplyImmediate_hasEffect (p : Prefixes) (w : Width) (short : Bool) :
    HasEffect .computes (multiplyImmediate p w short : Exec H Unit) := by
  refine .andThen (fetchOperand_hasEffect p) fun ⟨m, place⟩ => ?_
  refine .andThen (fetchImmediate_hasEffect w short) fun value => ?_
  refine .andThen (checkLock_hasEffect p) fun _ => ?_
  refine .andThen (readOperand_observes w place).hasEffect fun a => ?_
  exact storeProduct_hasEffect w m.firstRegister a value

/-- A division that fails is a fault of the processor and no refusal.  Nothing has been changed
by then. -/
theorem divideBy_hasEffect (p : Prefixes) (w : Width) (place : Operand) (name : String)
    (division : Pair → Dword → Except DivisionFailure Division) :
    HasEffect .computes (divideBy p w place name division : Exec H Unit) := by
  refine .andThen (checkLock_hasEffect p) fun _ => ?_
  refine .andThen (readOperand_observes w place).hasEffect fun divisor => ?_
  refine .skip (.view _) fun pair => ?_
  split
  next d _ =>
    refine (computed_hasEffect fun m => ?_).weaken (by decide)
    exact (Computed.refl m).setAccumulatorPair w _ _
  next failure _ => exact .skip (.note ..) fun _ => HasEffect.throw.weaken (by decide)

/-- Each member of the group takes its operand from the same mode byte. -/
theorem unaryGroup_hasEffect (p : Prefixes) (w : Width) :
    HasEffect .computes (unaryGroup p w : Exec H Unit) := by
  refine .andThen (fetchOperand_hasEffect p) fun ⟨m, place⟩ => ?_
  have ht : HasEffect .computes (do testOperand p w place (← fetch w) : Exec H Unit) :=
    .andThen (fetch_hasEffect w) fun b => testOperand_hasEffect p w place b
  dsimp only
  split
  · exact ht
  · exact ht
  · exact modifyOperand_hasEffect p w place (setsArithmetic_complement w)
  · exact modifyOperand_hasEffect p w place (setsArithmetic_negate w)
  · exact multiply_hasEffect p w place
  · exact signedMultiply_hasEffect p w place
  · exact divideBy_hasEffect p w place _ _
  · exact divideBy_hasEffect p w place _ _

/-! ## Conditions and single flags -/

/-- A condition is read off the flags and stored as a byte. -/
theorem setCondition_hasEffect (p : Prefixes) (code : BitVec 4) :
    HasEffect .computes (setCondition p code : Exec H Unit) := by
  refine .andThen (fetchOperand_hasEffect p) fun ⟨m, place⟩ => ?_
  refine .andThen (checkLock_hasEffect p) fun _ => .skip (.view _) fun holds => ?_
  exact (writeOperand_hasEffect .byte place _).weaken (by decide)

/-- A change of a single flag concerns carry or direction. -/
theorem FlagChange.getLsbD_apply (change : FlagChange) (flags : Dword) {i : Nat}
    (ha : Flags.arithmetic.getLsbD i = false) (hd : Flags.direction.getLsbD i = false) :
    (change.apply flags).getLsbD i = flags.getLsbD i := by
  have hc : Flags.carry.getLsbD i = false := Flags.getLsbD_of_arithmetic (by decide) ha
  cases change with
  | invertCarry => simp only [apply, BitVec.getLsbD_xor, hc, Bool.xor_false]
  | clearCarry => exact Flags.getLsbD_assign hc false
  | setCarry => exact Flags.getLsbD_assign hc true
  | clearDirection => exact Flags.getLsbD_assign hd false
  | setDirection => exact Flags.getLsbD_assign hd true

/-- One flag is changed, which may be the direction. -/
theorem changeFlag_hasEffect (p : Prefixes) (change : FlagChange) :
    HasEffect ⟨[.arithmeticFlags, .directionFlag], some [], some []⟩
      (changeFlag p change : Exec H Unit) := by
  have hu : HasEffect (.changes [.arithmeticFlags, .directionFlag])
      (update fun s => { s with eflags := change.apply s.eflags } : Exec H Unit) := by
    refine .update fun permits m => .ofFlags _ m _ fun i hi => ?_
    simp only [Footprint.HasFlag, List.mem_cons, not_or, not_and, Bool.not_eq_true] at hi
    exact change.getLsbD_apply m.eflags (hi.1 (.inl trivial)) (hi.2 (.inr (.inl trivial)))
  exact .bind (checkLock_hasEffect p) (fun _ => hu) (by decide)

/-! ## Shifts -/

/-- The count is one, a register, or the next byte of the code. -/
theorem shiftCount_hasEffect (source : CountSource) :
    HasEffect .reads (shiftCount source : Exec H Nat) := by
  cases source with
  | one => exact .skip (.pure _) fun _ => .pure _
  | counter => exact .skip (.view _) fun _ => .pure _
  | immediate => exact (fetch_hasEffect .byte).map _

/-- A function that computes a shift sets the flags of arithmetic alone. -/
abbrev ShiftsArithmetic (f : Dword → Dword → Option Outcome) : Prop :=
  ∀ {flags value outcome}, f flags value = some outcome → Flags.SameControl flags outcome.flags

/-- A shift sets its flags even where its result is not written in the end. -/
theorem shiftValue_hasEffect {f : Dword → Dword → Option Outcome} (hf : ShiftsArithmetic f)
    (value : Dword) :
    HasEffect (.changes [.arithmeticFlags]) (shiftValue f value : Exec H (Option Dword)) := by
  refine .updateWith fun permits m => ?_
  dsimp only
  split
  next outcome h => exact flags_agree m (hf h)
  next => exact .refl _ m

/-- An operand that stays as it is, is not written back. -/
theorem shiftOperand_hasEffect (w : Width) (place : Operand)
    {f : Dword → Dword → Option Outcome} (hf : ShiftsArithmetic f) :
    HasEffect .computes (shiftOperand w place f : Exec H Unit) := by
  refine .andThen (readOperand_observes w place).hasEffect fun value => ?_
  refine .bind (shiftValue_hasEffect hf value)
    (fun result? => (?_ : HasEffect ⟨[.registers, .memory], some [.tornMemory], none⟩ _)) (by decide)
  cases result? with
  | none => exact .pure _
  | some result => exact writeOperand_hasEffect w place result

theorem shiftGroup_hasEffect (p : Prefixes) (w : Width) (source : CountSource) :
    HasEffect .computes (shiftGroup p w source : Exec H Unit) := by
  refine .andThen (fetchOperand_hasEffect p) fun ⟨m, place⟩ => ?_
  refine .andThen (shiftCount_hasEffect source) fun count => ?_
  refine .andThen (checkLock_hasEffect p) fun _ => ?_
  exact shiftOperand_hasEffect w place ShiftOp.sameControl_apply

theorem doubleShiftOperand_hasEffect (p : Prefixes) (w : Width) (direction : Direction)
    (source : CountSource) :
    HasEffect .computes (doubleShiftOperand p w direction source : Exec H Unit) := by
  refine .andThen (fetchOperand_hasEffect p) fun ⟨m, place⟩ => ?_
  refine .andThen (shiftCount_hasEffect source) fun count => ?_
  refine .andThen (checkLock_hasEffect p) fun _ => .skip (.view _) fun fill => ?_
  exact shiftOperand_hasEffect w place sameControl_doubleShift

/-! ## Scans and bits -/

/-- A repeated scan is refused or warned of before the operand is read. -/
theorem checkRepeatedScan_hasEffect (p : Prefixes) (order : ScanOrder) :
    HasEffect .checks (checkRepeatedScan p order : Exec H Unit) := by
  refine .ite (.skip .get fun m => ?_) (.pure _)
  split
  · exact .throw
  · exact .note ..

/-- A scan writes its register only if there is a one to be found. -/
theorem bitScan_hasEffect (p : Prefixes) (w : Width) (order : ScanOrder) :
    HasEffect .computes (bitScan p w order : Exec H Unit) := by
  refine .andThen (fetchOperand_hasEffect p) fun ⟨m, place⟩ => ?_
  refine .andThen (checkLock_hasEffect p) fun _ => ?_
  refine .andThen (checkRepeatedScan_hasEffect p order) fun _ => ?_
  refine .andThen (readOperand_observes w place).hasEffect fun value => ?_
  split
  next index _ =>
    refine (computed_hasEffect fun m' => ?_).weaken (by decide)
    exact ((Computed.refl m').setFlag (by decide) false).setReg w _ _
  next =>
    refine (computed_hasEffect fun m' => ?_).weaken (by decide)
    exact (Computed.refl m').setFlag (by decide) true

/-- A test of a bit does not write the operand back. -/
theorem bitOperand_hasEffect (w : Width) (op : BitOp) (place : Operand) (index : Nat) :
    HasEffect .computes (bitOperand w op place index : Exec H Unit) := by
  refine .andThen (readOperand_observes w place).hasEffect fun value => ?_
  have hu : HasEffect (.changes [.arithmeticFlags])
      (update (·.setFlag Flags.carry (value &&& 1 <<< index != 0)) : Exec H Unit) :=
    .update fun _ m => setFlag_agree m (by decide) _
  exact .bind hu (fun _ => .ite (writeOperand_hasEffect w place _) (.pure _)) (by decide)

theorem checkLockOnBit_hasEffect (p : Prefixes) (op : BitOp) (place : Operand) :
    HasEffect .checks (checkLockOnBit p op place : Exec H Unit) :=
  .ite (checkLock_hasEffect p) (checkLockOn_hasEffect p place)

theorem bitByRegister_hasEffect (p : Prefixes) (w : Width) (op : BitOp) :
    HasEffect .computes (bitByRegister p w op : Exec H Unit) := by
  refine .andThen (fetchOperand_hasEffect p) fun ⟨m, place⟩ => ?_
  refine .andThen (checkLockOnBit_hasEffect p op place) fun _ => ?_
  exact .skip (.view _) fun k => bitOperand_hasEffect w op _ _

theorem bitByImmediate_hasEffect (p : Prefixes) (w : Width) :
    HasEffect .computes (bitByImmediate p w : Exec H Unit) := by
  refine .andThen fetch8_hasEffect fun b => ?_
  extract_lets m op join
  have hj : ∀ u, HasEffect .computes (join u) := fun _ => by
    refine .andThen (operand_hasEffect p m) fun place => ?_
    refine .andThen (fetch_hasEffect .byte) fun k => ?_
    refine .andThen (checkLockOnBit_hasEffect p op place) fun _ => ?_
    exact bitOperand_hasEffect w op place _
  exact .when .throw hj (hj ())

theorem swapBytes_hasEffect (p : Prefixes) (r : Reg) :
    HasEffect .computes (swapBytes p r : Exec H Unit) := by
  have hu : HasEffect (.changes [.registers])
      (update fun s => s.setReg .dword r (reverseBytes (s.reg .dword r)) : Exec H Unit) :=
    .update fun _ m => setReg_agree m .dword r _
  exact .bind (checkLock_hasEffect p) (fun _ => hu) (by decide)

end Exec

end Ia32
