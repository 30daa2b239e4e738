import Ia32.Instr.Indirect
import Ia32.Proofs.BlindInstructions

/-!
# Blind far transfers

Far jumps, calls and returns do the same on a machine without its record, whether
they go through a gate, change the stack, or fault.
-/

-- Blindness of a long program is a long answer.
set_option synthInstance.maxSize 512

namespace Ia32.Exec

variable {H : Type}

/-! ## Frames -/

instance enter_blind (cs : SegmentCache) (offset : Dword) :
    Blind (enter cs offset : Exec H Unit) := by
  unfold enter
  infer_instance

instance enterReal_blind (selector : Word) (offset : Dword) :
    Blind (enterReal selector offset : Exec H Unit) := by
  unfold enterReal
  infer_instance

instance checkRealOffset_blind (offset : Dword) :
    Blind (checkRealOffset offset : Exec H Unit) := by
  unfold checkRealOffset
  infer_instance

instance reserve_blind (bytes : Nat) : Blind (reserve bytes : Exec H Dword) := by
  unfold reserve
  dsimp only
  infer_instance

variable [Host H]

instance storeReturn_blind (w : Width) (top : Dword) :
    Blind (storeReturn w top : Exec H Unit) := by
  unfold storeReturn
  infer_instance

instance frameValue_blind (w : Width) (k : Nat) : Blind (frameValue w k : Exec H Dword) := by
  unfold frameValue
  infer_instance

instance storeFrame_blind (w : Width) (stack : NewStack) (top : Dword)
    (values : List (Dword × Nat)) : Blind (storeFrame w stack top values : Exec H Unit) := by
  induction values with
  | nil => exact .pure ()
  | cons value rest ih =>
    unfold storeFrame
    infer_instance

/-! ## Calls and jumps -/

instance transferReal_blind (transfer : Transfer) (w : Width) (selector : Word) (offset : Dword) :
    Blind (transferReal transfer w selector offset : Exec H Unit) := by
  unfold transferReal
  cases transfer <;> infer_instance

instance enterCode_blind (selector : Word) (d : Descriptor) (level : Byte) (offset : Dword)
    (frame : Option Width) : Blind (enterCode selector d level offset frame : Exec H Unit) := by
  refine .bind inferInstance fun top? => ?_
  dsimp only
  cases frame <;> cases top? <;> infer_instance

instance enterDirect_blind (transfer : Transfer) (w : Width) (selector : Word) (d : Descriptor)
    (offset : Dword) : Blind (enterDirect transfer w selector d offset : Exec H Unit) := by
  unfold enterDirect
  dsimp only
  infer_instance

instance gateTarget_blind (gateSelector : Word) (gate : Descriptor) :
    Blind (gateTarget gateSelector gate : Exec H GateTarget) := by
  unfold gateTarget
  dsimp only
  infer_instance

instance readStackDescriptor_blind (selector : Word) :
    Blind (readStackDescriptor selector : Exec H Descriptor) :=
  .tryCatch inferInstance fun _ => by split <;> infer_instance

instance innerStack_blind (level : Byte) : Blind (innerStack level : Exec H NewStack) := by
  unfold innerStack
  dsimp only
  infer_instance

instance callInner_blind (target : GateTarget) (w : Width) (offset : Dword) (count : Nat) :
    Blind (callInner target w offset count : Exec H Unit) := by
  unfold callInner
  dsimp only
  infer_instance

instance callGate_blind (gateSelector : Word) (gate : Descriptor) :
    Blind (callGate gateSelector gate : Exec H Unit) := by
  unfold callGate
  dsimp only
  infer_instance

instance jumpGate_blind (gateSelector : Word) (gate : Descriptor) :
    Blind (jumpGate gateSelector gate : Exec H Unit) := by
  unfold jumpGate
  dsimp only
  infer_instance

instance transferProtected_blind (transfer : Transfer) (w : Width) (selector : Word)
    (offset : Dword) : Blind (transferProtected transfer w selector offset : Exec H Unit) := by
  unfold transferProtected
  dsimp only
  cases transfer <;> infer_instance

instance transferFar_blind (transfer : Transfer) (w : Width) (selector : Word) (offset : Dword) :
    Blind (transferFar transfer w selector offset : Exec H Unit) := by
  unfold transferFar
  infer_instance

section

variable (p : Prefixes) (w : Width) (transfer : Transfer) (place : Operand)

instance fetchFarTarget_blind : Blind (fetchFarTarget p w : Exec H FarTarget) := by
  unfold fetchFarTarget
  infer_instance

instance farImmediate_blind : Blind (farImmediate p w transfer : Exec H Unit) := by
  unfold farImmediate
  infer_instance

/-! ## Returns -/

instance returnReal_blind : Blind (returnReal w : Exec H Unit) := by
  unfold returnReal
  infer_instance

instance returnOuter_blind (selector : Word) (d : Descriptor) (released : Word) :
    Blind (returnOuter w selector d released : Exec H Unit) := by
  unfold returnOuter
  dsimp only
  infer_instance

instance returnSame_blind (selector : Word) (d : Descriptor) :
    Blind (returnSame w selector d : Exec H Unit) := by
  unfold returnSame
  dsimp only
  infer_instance

instance returnProtected_blind (released : Word) :
    Blind (returnProtected w released : Exec H Unit) := by
  unfold returnProtected
  dsimp only
  infer_instance

instance returnFar_blind (released : Word) : Blind (returnFar w released : Exec H Unit) := by
  unfold returnFar
  infer_instance

instance retFar_blind : Blind (retFar p w : Exec H Unit) := by
  unfold retFar
  infer_instance

instance retFarReleasing_blind : Blind (retFarReleasing p w : Exec H Unit) := by
  unfold retFarReleasing
  infer_instance

/-! ## The indirect group -/

instance nearIndirect_blind : Blind (nearIndirect p w transfer place : Exec H Unit) := by
  unfold nearIndirect
  cases transfer <;> infer_instance

instance loadFarTarget_blind : Blind (loadFarTarget p w place : Exec H FarTarget) := by
  unfold loadFarTarget
  infer_instance

instance farIndirect_blind : Blind (farIndirect p w transfer place : Exec H Unit) := by
  unfold farIndirect
  infer_instance

instance indirectOperand_blind (m : ModeByte) :
    Blind (indirectOperand p w m place : Exec H Unit) := by
  unfold indirectOperand
  split <;> infer_instance

instance indirectGroup_blind : Blind (indirectGroup p w : Exec H Unit) := by
  unfold indirectGroup
  infer_instance

end

end Ia32.Exec
