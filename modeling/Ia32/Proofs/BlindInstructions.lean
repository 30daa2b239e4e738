import Ia32.Instr.Bitwise
import Ia32.Proofs.BlindPrograms

/-!
# Blind instructions

The instructions that work on operands, the stack, the flags and the ports do the
same on a machine without its record, and so do the transfers of control.
-/

-- Blindness of a long program is a long answer.
set_option synthInstance.maxSize 512

namespace Ia32.Exec

variable {H : Type}

/-! ## Operands -/

section Operands

instance memoryPlace_blind (place : Operand) :
    Blind (memoryPlace place : Exec H (Seg × Dword)) := by
  unfold memoryPlace
  split <;> infer_instance

instance checkLockOn_blind (p : Prefixes) (place : Operand) :
    Blind (checkLockOn p place : Exec H Unit) := by
  unfold checkLockOn
  infer_instance

variable [Host H]

instance address16_blind (mode : BitVec 2) (rm : BitVec 3) :
    Blind (address16 mode rm : Exec H (Seg × Dword)) := by
  unfold address16
  infer_instance

instance scaledBase_blind (mode : BitVec 2) :
    Blind (scaledBase mode : Exec H (Seg × Dword)) := by
  unfold scaledBase
  dsimp only
  infer_instance

instance address32_blind (mode : BitVec 2) (rm : BitVec 3) :
    Blind (address32 mode rm : Exec H (Seg × Dword)) := by
  unfold address32
  infer_instance

instance operand_blind (p : Prefixes) (m : ModeByte) :
    Blind (operand p m : Exec H Operand) := by
  unfold operand
  infer_instance

instance fetchOperand_blind (p : Prefixes) :
    Blind (fetchOperand p : Exec H (ModeByte × Operand)) := by
  unfold fetchOperand
  dsimp only
  infer_instance

instance readOperand_blind (w : Width) (place : Operand) :
    Blind (readOperand w place : Exec H Dword) := by
  unfold readOperand
  split <;> infer_instance

instance writeOperand_blind (w : Width) (place : Operand) (value : Dword) :
    Blind (writeOperand w place value : Exec H Unit) := by
  unfold writeOperand
  split <;> infer_instance

end Operands

/-! ## Tables -/

section Tables

variable [Host H]

instance readDescriptor_blind (selector : Word) :
    Blind (readDescriptor selector : Exec H Descriptor) := by
  unfold readDescriptor
  dsimp only
  infer_instance

instance markAccessed_blind (selector : Word) : Blind (markAccessed selector : Exec H Unit) := by
  unfold markAccessed
  infer_instance

instance taskStack_blind (level : Byte) : Blind (taskStack level : Exec H StackPointer) := by
  unfold taskStack
  dsimp only
  infer_instance

instance portsAllowed_blind (tr : SegmentCache) (mapBase port count : Nat) :
    Blind (portsAllowed tr mapBase port count : Exec H Bool) := by
  induction count generalizing port with
  | zero => exact .pure true
  | succ count ih =>
    have hrest := ih (port + 1)
    unfold portsAllowed
    dsimp only
    infer_instance

instance ioPermitted_blind (port : Word) (count : Nat) :
    Blind (ioPermitted port count : Exec H Bool) := by
  unfold ioPermitted
  infer_instance

end Tables

/-! ## Arithmetic -/

section Arithmetic

variable (p : Prefixes) (w : Width) (place : Operand)

instance alu_blind (op : AluOp) (a b : Dword) : Blind (alu w op a b : Exec H Dword) := by
  unfold alu
  infer_instance

instance unary_blind (f : Dword → Dword → Dword × Dword) (value : Dword) :
    Blind (unary f value : Exec H Dword) := by
  unfold unary
  infer_instance

instance testValues_blind (a b : Dword) : Blind (testValues w a b : Exec H Unit) := by
  unfold testValues
  infer_instance

instance aluRegister_blind (op : AluOp) (r : Reg) (b : Dword) :
    Blind (aluRegister w op r b : Exec H Unit) := by
  unfold aluRegister
  infer_instance

instance storeProduct_blind (r : Reg) (a b : Dword) :
    Blind (storeProduct w r a b : Exec H Unit) := by
  unfold storeProduct
  infer_instance

instance changeFlag_blind (change : FlagChange) : Blind (changeFlag p change : Exec H Unit) := by
  unfold changeFlag
  infer_instance

variable [Host H]

instance aluOperand_blind (op : AluOp) (b : Dword) :
    Blind (aluOperand p w op place b : Exec H Unit) := by
  unfold aluOperand
  dsimp only
  split <;> infer_instance

instance aluToOperand_blind (op : AluOp) : Blind (aluToOperand p w op : Exec H Unit) := by
  unfold aluToOperand
  infer_instance

instance aluToRegister_blind (op : AluOp) : Blind (aluToRegister p w op : Exec H Unit) := by
  unfold aluToRegister
  infer_instance

instance aluAccumulator_blind (op : AluOp) : Blind (aluAccumulator p w op : Exec H Unit) := by
  unfold aluAccumulator
  infer_instance

instance aluImmediate_blind (short : Bool) : Blind (aluImmediate p w short : Exec H Unit) := by
  unfold aluImmediate
  infer_instance

instance testOperand_blind (b : Dword) : Blind (testOperand p w place b : Exec H Unit) := by
  unfold testOperand
  split <;> infer_instance

instance testRegister_blind : Blind (testRegister p w : Exec H Unit) := by
  unfold testRegister
  infer_instance

instance testAccumulator_blind : Blind (testAccumulator p w : Exec H Unit) := by
  unfold testAccumulator
  infer_instance

instance modifyOperand_blind (f : Dword → Dword → Dword × Dword) :
    Blind (modifyOperand p w place f : Exec H Unit) := by
  unfold modifyOperand
  infer_instance

instance incrementRegister_blind (r : Reg) : Blind (incrementRegister p w r : Exec H Unit) := by
  unfold incrementRegister
  infer_instance

instance decrementRegister_blind (r : Reg) : Blind (decrementRegister p w r : Exec H Unit) := by
  unfold decrementRegister
  infer_instance

instance incrementByte_blind : Blind (incrementByte p : Exec H Unit) :=
  .bind inferInstance fun fetched => by cases fetched; dsimp only; split <;> infer_instance

instance multiply_blind : Blind (multiply p w place : Exec H Unit) := by
  unfold multiply
  infer_instance

instance signedMultiply_blind : Blind (signedMultiply p w place : Exec H Unit) := by
  unfold signedMultiply
  infer_instance

instance multiplyRegister_blind : Blind (multiplyRegister p w : Exec H Unit) := by
  unfold multiplyRegister
  infer_instance

instance multiplyImmediate_blind (short : Bool) :
    Blind (multiplyImmediate p w short : Exec H Unit) := by
  unfold multiplyImmediate
  infer_instance

instance divideBy_blind (name : String)
    (division : Pair → Dword → Except DivisionFailure Division) :
    Blind (divideBy p w place name division : Exec H Unit) := by
  have hdivide : ∀ (dividend : Pair) (divisor : Dword), Blind (do
      match division dividend divisor with
      | .ok d => update (setAccumulatorPair w d.quotient d.remainder)
      | .error failure =>
        note .faults .debug fun _ => divisionMessage p w name failure
        throw .divideError : Exec H Unit) := fun _ _ => by split <;> infer_instance
  unfold divideBy
  infer_instance

instance unaryGroup_blind : Blind (unaryGroup p w : Exec H Unit) :=
  .bind inferInstance fun fetched => by cases fetched; dsimp only; split <;> infer_instance

instance setCondition_blind (code : BitVec 4) : Blind (setCondition p code : Exec H Unit) := by
  unfold setCondition
  infer_instance

end Arithmetic

/-! ## Shifts and bits -/

section Bits

variable (p : Prefixes) (w : Width) (place : Operand)

instance shiftValue_blind (f : Dword → Dword → Option Outcome) (value : Dword) :
    Blind (shiftValue f value : Exec H (Option Dword)) := by
  unfold shiftValue
  infer_instance

instance checkRepeatedScan_blind (order : ScanOrder) :
    Blind (checkRepeatedScan p order : Exec H Unit) := by
  have hchoice : Blind (do
      match (← get).config.repeatedScan with
      | .invalidOpcode => throw .invalidOpcode
      | .warnAndIgnore => note .stubs .warn fun _ => scanMessage p order : Exec H Unit) :=
    .ofGet (fun _ => rfl) fun _ => by split <;> infer_instance
  unfold checkRepeatedScan
  infer_instance

instance checkLockOnBit_blind (op : BitOp) : Blind (checkLockOnBit p op place : Exec H Unit) := by
  unfold checkLockOnBit
  infer_instance

instance swapBytes_blind (r : Reg) : Blind (swapBytes p r : Exec H Unit) := by
  unfold swapBytes
  infer_instance

variable [Host H]

instance shiftCount_blind (source : CountSource) : Blind (shiftCount source : Exec H Nat) := by
  unfold shiftCount
  dsimp only
  split <;> infer_instance

instance shiftOperand_blind (f : Dword → Dword → Option Outcome) :
    Blind (shiftOperand w place f : Exec H Unit) := by
  have hwrite : ∀ result? : Option Dword, Blind (do
      match result? with
      | some result => writeOperand w place result
      | none => pure () : Exec H Unit) := fun _ => by split <;> infer_instance
  unfold shiftOperand
  infer_instance

instance shiftGroup_blind (source : CountSource) :
    Blind (shiftGroup p w source : Exec H Unit) := by
  unfold shiftGroup
  infer_instance

instance doubleShiftOperand_blind (direction : Direction) (source : CountSource) :
    Blind (doubleShiftOperand p w direction source : Exec H Unit) := by
  unfold doubleShiftOperand
  infer_instance

instance bitScan_blind (order : ScanOrder) : Blind (bitScan p w order : Exec H Unit) := by
  unfold bitScan
  refine .bind inferInstance fun fetched => ?_
  obtain ⟨m, place⟩ := fetched
  have hindex : ∀ value, Blind (do
      match scan? w order value with
      | some index =>
        update fun s =>
          (s.setFlag Flags.zero false).setReg w m.firstRegister (BitVec.ofNat 32 index)
      | none => update (·.setFlag Flags.zero true) : Exec H Unit) := fun _ => by
    split <;> infer_instance
  infer_instance

instance bitOperand_blind (op : BitOp) (index : Nat) :
    Blind (bitOperand w op place index : Exec H Unit) := by
  unfold bitOperand
  dsimp only
  infer_instance

instance bitByRegister_blind (op : BitOp) : Blind (bitByRegister p w op : Exec H Unit) := by
  unfold bitByRegister
  infer_instance

instance bitByImmediate_blind : Blind (bitByImmediate p w : Exec H Unit) := by
  unfold bitByImmediate
  dsimp only
  infer_instance

end Bits

/-! ## The stack -/

section Stack

variable (p : Prefixes) (w : Width)

variable [Host H]

instance pushRegister_blind (r : Reg) : Blind (pushRegister p w r : Exec H Unit) := by
  unfold pushRegister
  infer_instance

instance popRegister_blind (r : Reg) : Blind (popRegister p w r : Exec H Unit) := by
  unfold popRegister
  infer_instance

instance pushImmediate_blind (short : Bool) : Blind (pushImmediate p w short : Exec H Unit) := by
  unfold pushImmediate
  infer_instance

instance pushOperand_blind (place : Operand) : Blind (pushOperand p w place : Exec H Unit) := by
  unfold pushOperand
  infer_instance

instance popOperand_blind : Blind (popOperand p w : Exec H Unit) := by
  unfold popOperand
  dsimp only
  infer_instance

instance pushEach_blind (values : List Dword) : Blind (pushEach w values : Exec H Unit) := by
  induction values with
  | nil => exact .pure ()
  | cons value rest ih =>
    unfold pushEach
    infer_instance

instance pushAll_blind : Blind (pushAll p w : Exec H Unit) := by
  unfold pushAll
  infer_instance

instance stackValues_blind (count index : Nat) :
    Blind (stackValues w count index : Exec H (List Dword)) := by
  induction count generalizing index with
  | zero => exact .pure []
  | succ count ih =>
    have hrest := ih (index + 1)
    unfold stackValues
    infer_instance

instance popAll_blind : Blind (popAll p w : Exec H Unit) := by
  unfold popAll
  infer_instance

end Stack

/-! ## Strings -/

section Strings

variable (p : Prefixes) (w : Width)

instance counter_blind : Blind (counter p : Exec H Dword) := by
  unfold counter
  infer_instance

instance decrementCounter_blind : Blind (decrementCounter p : Exec H Dword) := by
  unfold decrementCounter
  infer_instance

instance indexRegister_blind (r : Reg) : Blind (indexRegister p r : Exec H Dword) := by
  unfold indexRegister
  infer_instance

instance advance_blind (r : Reg) : Blind (advance p r w : Exec H Unit) := by
  unfold advance
  infer_instance

instance restart_blind : Blind (restart p : Exec H Unit) := by
  unfold restart
  infer_instance

instance isExhausted_blind : Blind (isExhausted p : Exec H Bool) := by
  unfold isExhausted
  infer_instance

instance repeatInstruction_blind : Blind (repeatInstruction p : Exec H Unit) := by
  unfold repeatInstruction
  infer_instance

instance repeatComparison_blind : Blind (repeatComparison p : Exec H Unit) := by
  unfold repeatComparison
  split <;> infer_instance

variable [Host H]

instance compareStrings_blind : Blind (compareStrings p w : Exec H Unit) := by
  unfold compareStrings
  infer_instance

instance scanString_blind : Blind (scanString p w : Exec H Unit) := by
  unfold scanString
  infer_instance

end Strings

/-! ## Near transfers -/

section Near

variable (p : Prefixes) (w : Width)

instance checkTarget_blind (target : Dword) : Blind (checkTarget target : Exec H Unit) := by
  unfold checkTarget
  infer_instance

instance goTo_blind (target : Dword) : Blind (goTo target : Exec H Unit) := by
  unfold goTo
  infer_instance

instance jumpTo_blind (target : Dword) : Blind (jumpTo w target : Exec H Unit) := by
  unfold jumpTo
  infer_instance

instance jumpBy_blind (distance : Dword) : Blind (jumpBy w distance : Exec H Unit) := by
  unfold jumpBy
  infer_instance

instance release_blind (bytes : Word) : Blind (release bytes : Exec H Unit) := by
  unfold release
  infer_instance

variable [Host H]

instance callTo_blind (target : Dword) : Blind (callTo w target : Exec H Unit) := by
  unfold callTo
  infer_instance

instance fetchDistance_blind (short : Bool) : Blind (fetchDistance w short : Exec H Dword) := by
  unfold fetchDistance
  infer_instance

instance jump_blind (short : Bool) : Blind (jump p w short : Exec H Unit) := by
  unfold jump
  infer_instance

instance jumpIf_blind (code : BitVec 4) (short : Bool) :
    Blind (jumpIf p w code short : Exec H Unit) := by
  unfold jumpIf
  infer_instance

instance call_blind : Blind (call p w : Exec H Unit) := by
  unfold call
  infer_instance

instance loop_blind (mode : Option RepeatMode) : Blind (loop p w mode : Exec H Unit) := by
  unfold loop
  infer_instance

instance jumpIfCounterZero_blind : Blind (jumpIfCounterZero p w : Exec H Unit) := by
  unfold jumpIfCounterZero
  infer_instance

instance returnNear_blind : Blind (returnNear w : Exec H Unit) := by
  unfold returnNear
  infer_instance

instance fetchReleased_blind : Blind (fetchReleased : Exec H Word) := by
  unfold fetchReleased
  infer_instance

instance ret_blind : Blind (ret p w : Exec H Unit) := by
  unfold ret
  infer_instance

instance retReleasing_blind : Blind (retReleasing p w : Exec H Unit) := by
  unfold retReleasing
  infer_instance

end Near

/-! ## Ports -/

section Ports

variable (p : Prefixes) (w : Width)

variable [Host H]

instance checkPorts_blind (port : Word) : Blind (checkPorts port w : Exec H Unit) := by
  unfold checkPorts
  infer_instance

instance portRead_blind (port : Word) : Blind (portRead w port : Exec H Dword) :=
  .bind ⟨fun _ => by cases w <;> rfl⟩ fun _ => inferInstance

instance portWrite_blind (port : Word) (value : Dword) :
    Blind (portWrite w port value : Exec H Unit) :=
  .bind inferInstance fun _ => ⟨fun _ => by cases w <;> rfl⟩

instance portNumber_blind (source : PortSource) : Blind (portNumber p source : Exec H Word) := by
  unfold portNumber
  dsimp only
  split <;> infer_instance

instance input_blind (source : PortSource) : Blind (input p w source : Exec H Unit) := by
  unfold input
  infer_instance

instance output_blind (source : PortSource) : Blind (output p w source : Exec H Unit) := by
  unfold output
  infer_instance

instance inputString_blind : Blind (inputString p w : Exec H Unit) := by
  unfold inputString
  infer_instance

instance outputString_blind : Blind (outputString p w : Exec H Unit) := by
  unfold outputString
  infer_instance

end Ports

end Ia32.Exec
