import Ia32.Instr.Bitwise
import Ia32.Instr.Indirect
import Ia32.Instr.Ports
import Ia32.Proofs.Ends

/-!
# Programs that stand

A program stands when it leaves the instruction pointer where it is.  What an
instruction does with its operands, once these are taken from the code, is such a
program, unless the instruction transfers control or is repeated.

As for blind programs, there is one instance for each way to put programs together,
and one for each program.
-/

-- A long program has a long answer.
set_option synthInstance.maxSize 512

namespace Ia32.Exec

variable {H : Type} {α β : Type}

/-- A program leaves the instruction pointer where it is, unless it faults. -/
class Stands (x : Exec H α) : Prop where
  eip_eq : ∀ {m a m'}, x.run m = .ok a m' → m'.eip = m.eip

namespace Stands

/-! ## Rules -/

instance pure (a : α) : Stands (Pure.pure a : Exec H α) := ⟨by rintro _ _ _ ⟨⟩; rfl⟩

instance throw (f : Fault) : Stands (MonadExcept.throw f : Exec H α) := ⟨by rintro _ _ _ ⟨⟩⟩

instance machine : Stands (get : Exec H (Machine H)) := ⟨by rintro _ _ _ ⟨⟩; rfl⟩

instance bind {x : Exec H β} {k : β → Exec H α} [hx : Stands x] [hk : ∀ b, Stands (k b)] :
    Stands (x >>= k) := by
  constructor
  intro m a m' h
  obtain ⟨b, m₁, hrun, hrest⟩ := run_bind_eq_ok_iff.1 h
  exact ((hk b).eip_eq hrest).trans (hx.eip_eq hrun)

/-- The rule for a program whose rest depends on a result about which something is known. -/
theorem followed {x : Exec H β} {k : β → Exec H α} [Stands x] (hk : ∀ b, Stands (k b)) :
    Stands (x >>= k) := bind

instance map {x : Exec H β} {f : β → α} [hx : Stands x] : Stands (f <$> x) := by
  rw [map_eq_pure_bind]
  infer_instance

instance ite {c : Prop} [Decidable c] {x y : Exec H α} [hx : Stands x] [hy : Stands y] :
    Stands (if c then x else y) := by
  split
  · exact hx
  · exact hy

/-- A change of the machine that leaves the pointer where it is. -/
theorem ofModify {f : Machine H → Machine H} (hf : ∀ m, (f m).eip = m.eip) :
    Stands (modify f : Exec H Unit) := ⟨by rintro m _ _ ⟨⟩; exact hf m⟩

theorem ofModifyGet {f : Machine H → α × Machine H} (hf : ∀ m, (f m).2.eip = m.eip) :
    Stands (modifyGet f : Exec H α) := ⟨by rintro m _ _ ⟨⟩; exact hf m⟩

theorem ofUpdate {f : Processor → Processor} (hf : ∀ s, (f s).eip = s.eip) :
    Stands (update f : Exec H Unit) := ofModify fun _ => hf _

theorem ofUpdateWith {f : Processor → α × Processor} (hf : ∀ s, (f s).2.eip = s.eip) :
    Stands (updateWith f : Exec H α) := ofModifyGet fun _ => hf _

instance view (f : Processor → α) : Stands (Exec.view f : Exec H α) := ⟨by rintro _ _ _ ⟨⟩; rfl⟩

instance note (category : Log.Category) (level : Log.Level) (message : Machine H → String) :
    Stands (Exec.note category level message) := ofModify fun _ => rfl

/-- Registers and flags may change. -/
instance setReg (w : Width) (r : Reg) (f : Processor → Dword) :
    Stands (update fun s => s.setReg w r (f s) : Exec H Unit) := .ofUpdate fun _ => rfl

instance setFlags (f : Processor → Dword) :
    Stands (update fun s => { s with eflags := f s } : Exec H Unit) := .ofUpdate fun _ => rfl

instance setSp (f : Processor → Dword) :
    Stands (update fun s => s.setSp (f s) : Exec H Unit) := .ofUpdate fun _ => rfl

end Stands

/-! ## Access to memory -/

instance checkLock_stands (p : Prefixes) : Stands (checkLock p : Exec H Unit) := by
  unfold checkLock
  infer_instance

instance checkAccess_stands (cache : SegmentCache) (onStack : Bool) (offset : Dword) (len : Nat)
    (access : Access) : Stands (checkAccess cache onStack offset len access : Exec H Dword) := by
  unfold checkAccess
  dsimp only
  infer_instance

section Memory

variable [Host H]

instance readLinear_stands (linear : Dword) (n : Nat) :
    Stands (readLinear linear n : Exec H (List Byte)) := by
  have hread (m : Machine H) : Stands (do
      match hostBytes m.host linear n with
      | .ok bytes => return bytes
      | .error fault => throw fault : Exec H (List Byte)) := by split <;> infer_instance
  unfold readLinear
  infer_instance

instance raiseIf_stands (fault? : Option Fault) : Stands (raiseIf fault? : Exec H Unit) := by
  unfold raiseIf
  split <;> infer_instance

instance storeEach_stands (linear : Dword) (bytes : List Byte) :
    Stands (storeEach linear bytes : Exec H Unit) := by
  induction bytes generalizing linear with
  | nil => exact .pure ()
  | cons b bs ih =>
    have hstore : Stands (modify fun m => { m with host := Host.store m.host linear b } :
        Exec H Unit) := .ofModify fun _ => rfl
    have hrest := ih (linear + 1)
    unfold storeEach
    infer_instance

instance writeLinear_stands (linear : Dword) (bytes : List Byte) :
    Stands (writeLinear linear bytes : Exec H Unit) := by
  unfold writeLinear
  infer_instance

instance loadBytes_stands (seg : Seg) (offset : Dword) (n : Nat) :
    Stands (loadBytes seg offset n : Exec H (List Byte)) := by
  unfold loadBytes linearOf
  infer_instance

instance load_stands (w : Width) (seg : Seg) (offset : Dword) :
    Stands (load w seg offset : Exec H Dword) := by
  unfold load
  infer_instance

instance storeBytes_stands (seg : Seg) (offset : Dword) (bytes : List Byte) :
    Stands (storeBytes seg offset bytes : Exec H Unit) := by
  unfold storeBytes linearOf
  infer_instance

instance store_stands (w : Width) (seg : Seg) (offset value : Dword) :
    Stands (store w seg offset value : Exec H Unit) := by
  unfold store
  infer_instance

instance push_stands (w : Width) (value : Dword) : Stands (push w value : Exec H Unit) := by
  unfold push
  infer_instance

instance pop_stands (w : Width) : Stands (pop w : Exec H Dword) := by
  unfold pop
  infer_instance

omit [Host H] in
/-- A program that restores the stack pointer after a fault faults again. -/
theorem run_of_keepingStack {action : Exec H α} {m m' : Machine H} {a : α}
    (h : (keepingStack action).run m = .ok a m') : action.run m = .ok a m' := by
  rw [keepingStack, run_view_bind] at h
  change EStateM.tryCatch action _ m = _ at h
  change action m = _
  unfold EStateM.tryCatch at h
  cases haction : action m with
  | ok b m₁ =>
    rw [haction] at h
    exact h
  | error f m₁ =>
    rw [haction] at h
    cases h

instance keepingStack_stands (action : Exec H α) [hx : Stands action] :
    Stands (keepingStack action) := ⟨fun h => hx.eip_eq (run_of_keepingStack h)⟩

instance readOperand_stands (w : Width) (place : Operand) :
    Stands (readOperand w place : Exec H Dword) := by
  unfold readOperand
  split <;> infer_instance

instance writeOperand_stands (w : Width) (place : Operand) (value : Dword) :
    Stands (writeOperand w place value : Exec H Unit) := by
  unfold writeOperand
  split <;> infer_instance

end Memory

/-! ## Arithmetic -/

section Arithmetic

variable (p : Prefixes) (w : Width) (place : Operand)

instance alu_stands (op : AluOp) (a b : Dword) : Stands (alu w op a b : Exec H Dword) :=
  .ofUpdateWith fun _ => rfl

instance unary_stands (f : Dword → Dword → Dword × Dword) (value : Dword) :
    Stands (unary f value : Exec H Dword) := .ofUpdateWith fun _ => rfl

instance testValues_stands (a b : Dword) : Stands (testValues w a b : Exec H Unit) :=
  .ofUpdate fun _ => rfl

instance aluRegister_stands (op : AluOp) (r : Reg) (b : Dword) :
    Stands (aluRegister w op r b : Exec H Unit) := by
  unfold aluRegister
  infer_instance

instance storeProduct_stands (r : Reg) (a b : Dword) :
    Stands (storeProduct w r a b : Exec H Unit) := .ofUpdate fun _ => rfl

instance setAccumulatorPair_stands (low high : Dword) :
    Stands (update (setAccumulatorPair w low high) : Exec H Unit) :=
  .ofUpdate fun _ => by cases w <;> rfl

instance changeFlag_stands (change : FlagChange) :
    Stands (changeFlag p change : Exec H Unit) := by
  unfold changeFlag
  infer_instance

instance checkLockOn_stands : Stands (checkLockOn p place : Exec H Unit) := by
  unfold checkLockOn
  infer_instance

variable [Host H]

instance aluOperand_stands (op : AluOp) (b : Dword) :
    Stands (aluOperand p w op place b : Exec H Unit) := by
  unfold aluOperand
  dsimp only
  split <;> infer_instance

instance testOperand_stands (b : Dword) : Stands (testOperand p w place b : Exec H Unit) := by
  unfold testOperand
  split <;> infer_instance

instance modifyOperand_stands (f : Dword → Dword → Dword × Dword) :
    Stands (modifyOperand p w place f : Exec H Unit) := by
  unfold modifyOperand
  infer_instance

instance multiply_stands : Stands (multiply p w place : Exec H Unit) := by
  have hproduct (b : Dword) : Stands (update fun s =>
      let product := w.product (s.reg w Reg.eax) b
      setCarryOverflow (product.high != 0) (setAccumulatorPair w product.low product.high s) :
        Exec H Unit) := .ofUpdate fun _ => by cases w <;> rfl
  unfold multiply
  infer_instance

instance signedMultiply_stands : Stands (signedMultiply p w place : Exec H Unit) := by
  have hproduct (b : Dword) : Stands (update fun s =>
      let a := s.reg w Reg.eax
      let product := w.signedProduct a b
      let s := setAccumulatorPair w product.low product.high s
      setCarryOverflow (w.signedProductOverflows a b)
        (s.setFlag Flags.sign (w.isNegative product.low)) : Exec H Unit) :=
    .ofUpdate fun _ => by cases w <;> rfl
  unfold signedMultiply
  infer_instance

instance divideBy_stands (name : String)
    (division : Pair → Dword → Except DivisionFailure Division) :
    Stands (divideBy p w place name division : Exec H Unit) := by
  have hdivide (dividend : Pair) (divisor : Dword) : Stands (do
      match division dividend divisor with
      | .ok d => update (setAccumulatorPair w d.quotient d.remainder)
      | .error failure =>
        note .faults .debug fun _ => divisionMessage p w name failure
        throw .divideError : Exec H Unit) := by split <;> infer_instance
  unfold divideBy
  infer_instance

end Arithmetic

/-! ## Shifts and bits -/

section Bits

variable (p : Prefixes) (w : Width) (place : Operand)

instance shiftValue_stands (f : Dword → Dword → Option Outcome) (value : Dword) :
    Stands (shiftValue f value : Exec H (Option Dword)) :=
  .ofUpdateWith fun s => by split <;> rfl

instance checkRepeatedScan_stands (order : ScanOrder) :
    Stands (checkRepeatedScan p order : Exec H Unit) := by
  have hchoice (m : Machine H) : Stands (do
      match m.config.repeatedScan with
      | .invalidOpcode => throw .invalidOpcode
      | .warnAndIgnore => note .stubs .warn fun _ => scanMessage p order : Exec H Unit) := by
    split <;> infer_instance
  unfold checkRepeatedScan
  infer_instance

instance swapBytes_stands (r : Reg) : Stands (swapBytes p r : Exec H Unit) := by
  unfold swapBytes
  infer_instance

instance checkLockOnBit_stands (op : BitOp) :
    Stands (checkLockOnBit p op place : Exec H Unit) := by
  unfold checkLockOnBit
  infer_instance

variable [Host H]

instance shiftOperand_stands (f : Dword → Dword → Option Outcome) :
    Stands (shiftOperand w place f : Exec H Unit) := by
  have hwrite (result? : Option Dword) : Stands (do
      match result? with
      | some result => writeOperand w place result
      | none => pure () : Exec H Unit) := by split <;> infer_instance
  unfold shiftOperand
  infer_instance

instance bitOperand_stands (op : BitOp) (index : Nat) :
    Stands (bitOperand w op place index : Exec H Unit) := by
  have hcarry (value : Dword) : Stands (update (·.setFlag Flags.carry
      (value &&& (1 : Dword) <<< index != 0)) : Exec H Unit) := .ofUpdate fun _ => rfl
  unfold bitOperand
  dsimp only
  infer_instance

end Bits

/-! ## The stack -/

section Stack

variable (w : Width) [Host H]

instance pushOperand_stands (p : Prefixes) (place : Operand) :
    Stands (pushOperand p w place : Exec H Unit) := by
  unfold pushOperand
  infer_instance

instance pushEach_stands (values : List Dword) : Stands (pushEach w values : Exec H Unit) := by
  induction values with
  | nil => exact .pure ()
  | cons value rest ih =>
    unfold pushEach
    infer_instance

instance stackValues_stands (count index : Nat) :
    Stands (stackValues w count index : Exec H (List Dword)) := by
  induction count generalizing index with
  | zero => exact .pure []
  | succ count ih =>
    have hrest := ih (index + 1)
    unfold stackValues
    infer_instance

instance pushRegister_stands (p : Prefixes) (r : Reg) :
    Stands (pushRegister p w r : Exec H Unit) := by
  unfold pushRegister
  infer_instance

instance popRegister_stands (p : Prefixes) (r : Reg) :
    Stands (popRegister p w r : Exec H Unit) := by
  unfold popRegister
  infer_instance

instance pushAll_stands (p : Prefixes) : Stands (pushAll p w : Exec H Unit) := by
  unfold pushAll
  infer_instance

instance popAll_stands (p : Prefixes) : Stands (popAll p w : Exec H Unit) := by
  have heip (values : List Dword) (s : Processor) : (writeDownward w values s).eip = s.eip := by
    unfold writeDownward
    refine List.foldlRecOn (motive := fun t : Processor => t.eip = s.eip) _ _ rfl fun t ht _ _ => ?_
    dsimp only
    split <;> exact ht
  have hwrite (values : List Dword) : Stands (update fun s =>
      let s := writeDownward w values s
      s.setSp (s.spPlus (BitVec.ofNat 32 (8 * w.bytes))) : Exec H Unit) := .ofUpdate (heip values)
  unfold popAll
  infer_instance

end Stack

/-! ## Strings and ports -/

section Ports

variable (p : Prefixes) (w : Width)

instance counter_stands : Stands (counter p : Exec H Dword) := by
  unfold counter
  infer_instance

instance decrementCounter_stands : Stands (decrementCounter p : Exec H Dword) :=
  .ofUpdateWith fun _ => rfl

instance isExhausted_stands : Stands (isExhausted p : Exec H Bool) := by
  unfold isExhausted
  infer_instance

instance indexRegister_stands (r : Reg) : Stands (indexRegister p r : Exec H Dword) := by
  unfold indexRegister
  infer_instance

instance advance_stands (r : Reg) : Stands (advance p r w : Exec H Unit) := .ofUpdate fun _ => rfl

instance portRead_stands [Host H] (port : Word) : Stands (portRead w port : Exec H Dword) := by
  have hread : Stands (modifyGet fun m =>
      match w with
      | .byte =>
        let (value, h) := Host.readPort8 m.host port
        (value.setWidth 32, { m with host := h })
      | .word =>
        let (value, h) := Host.readPort16 m.host port
        (value.setWidth 32, { m with host := h })
      | .dword =>
        let (value, h) := Host.readPort32 m.host port
        (value, { m with host := h }) : Exec H Dword) := .ofModifyGet fun _ => by cases w <;> rfl
  unfold portRead
  infer_instance

instance portWrite_stands [Host H] (port : Word) (value : Dword) :
    Stands (portWrite w port value : Exec H Unit) := by
  have hwrite : Stands (modify fun m =>
      match w with
      | .byte => { m with host := Host.writePort8 m.host port (value.setWidth 8) }
      | .word => { m with host := Host.writePort16 m.host port (value.setWidth 16) }
      | .dword => { m with host := Host.writePort32 m.host port value } : Exec H Unit) :=
    .ofModify fun _ => by cases w <;> rfl
  unfold portWrite
  infer_instance

variable [Host H]

instance portsAllowed_stands (tr : SegmentCache) (mapBase port count : Nat) :
    Stands (portsAllowed tr mapBase port count : Exec H Bool) := by
  induction count generalizing port with
  | zero => exact .pure true
  | succ count ih =>
    have hrest := ih (port + 1)
    unfold portsAllowed readLinearValue
    dsimp only
    infer_instance

instance checkPorts_stands (port : Word) : Stands (checkPorts port w : Exec H Unit) := by
  unfold checkPorts ioPermitted readLinearValue
  infer_instance

end Ports

end Ia32.Exec
