import Ia32.Instruction
import Ia32.Proofs.Views

/-!
# What far transfers check

The conditions under which a far transfer goes through in protected mode: for
each way of entering code, what the descriptors, the gate, the frame and the
stack of the new level must be.  From them follow the descriptors that a far
transfer may mark as accessed, and the stack that it may enter.
-/

namespace Ia32

open Exec

variable {v : FarView}

/-! ## Transfers -/

/-- A code segment to which the program may go without a gate. -/
structure DirectEntry (v : FarView) (selector : Word) (target : Descriptor) : Prop where
  descriptor : v.descriptor? selector = some target
  isCode : target.isCode = true
  admitted : admitsDirect selector target v.level = true
  present : target.isPresent = true

/-- A call gate that the program may use, and the code segment behind it. -/
structure GatePassage (v : FarView) (selector : Word) (gate target : Descriptor) : Prop where
  descriptor : v.descriptor? selector = some gate
  isCallGate : gate.isCallGate = true
  level : v.level ≤ gate.dpl
  requested : requestedLevel selector ≤ gate.dpl
  present : gate.isPresent = true
  targetDescriptor : v.descriptor? gate.gateSelector = some target
  targetIsCode : target.isCode = true
  targetLevel : target.dpl ≤ v.level
  targetPresent : target.isPresent = true

/-- A gate to a code segment of the same level, or to a conforming one. -/
structure LevelGate (v : FarView) (selector : Word) (gate target : Descriptor) : Prop extends
    GatePassage v selector gate target where
  keepsLevel : target.isConforming = true ∨ target.dpl = v.level

/-- A stack that may be used at a level. -/
structure StackAt (v : FarView) (level : Byte) (selector : Word) (stack : Descriptor) : Prop where
  descriptor : v.descriptor? selector = some stack
  requested : requestedLevel selector = level
  level : stack.dpl = level
  writable : stack.isWritableData = true
  present : stack.isPresent = true

/-- A call through a gate to a more privileged level, with the stack of that level. -/
structure InnerCall (v : FarView) (selector : Word) (gate target : Descriptor)
    (place : StackPointer) (stack : Descriptor) : Prop extends
    GatePassage v selector gate target where
  nonconforming : target.isConforming = false
  inner : target.dpl < v.level
  taskStack : v.taskStack? target.dpl = some place
  stackAt : StackAt v target.dpl place.selector stack

/-! ## Returns -/

/-- A code segment to which the program may return. -/
structure ReturnTarget (v : FarView) (w : Width) (selector : Word) (target : Descriptor) :
    Prop where
  popped : (v.frameValue? w 1).map (·.setWidth 16) = some selector
  descriptor : v.descriptor? selector = some target
  isCode : target.isCode = true
  admitted : admitsReturn selector target v.level = true
  present : target.isPresent = true

/-- A return to a less privileged level, with the stack of that level. -/
structure OuterReturn (v : FarView) (w : Width) (released selector : Word) (target : Descriptor)
    (place : Word) (stack : Descriptor) : Prop extends ReturnTarget v w selector target where
  outer : v.level < requestedLevel selector
  framed : v.outerStack? w released = some place
  stackAt : StackAt v (requestedLevel selector) place stack

/-! ## Far instructions -/

/-- A far instruction, with what its operands say. -/
inductive FarInstruction where
  /-- A jump or a call. -/
  | transfer (transfer : Transfer) (w : Width) (target : FarTarget)
  /-- A return that releases some bytes of the stack. -/
  | ret (w : Width) (released : Word)
deriving DecidableEq, Repr

namespace FarInstruction

/-- The selectors whose entries a far instruction may mark as accessed. -/
inductive Marks (v : FarView) : FarInstruction → Word → Prop where
  | direct {transfer : Transfer} {w : Width} {dest : FarTarget} {target : Descriptor} :
    DirectEntry v dest.selector target →
    Marks v (.transfer transfer w dest) dest.selector
  | gate {transfer : Transfer} {w : Width} {dest : FarTarget} {gate target : Descriptor} :
    LevelGate v dest.selector gate target →
    Marks v (.transfer transfer w dest) gate.gateSelector
  | innerCode {w : Width} {dest : FarTarget} {gate target stack : Descriptor} {place : StackPointer} :
    InnerCall v dest.selector gate target place stack →
    Marks v (.transfer .call w dest) gate.gateSelector
  | innerStack {w : Width} {dest : FarTarget} {gate target stack : Descriptor}
    {place : StackPointer} :
    InnerCall v dest.selector gate target place stack →
    Marks v (.transfer .call w dest) place.selector
  | returnCode {w : Width} {released selector : Word} {target : Descriptor} :
    ReturnTarget v w selector target →
    Marks v (.ret w released) selector
  | returnStack {w : Width} {released selector place : Word} {target stack : Descriptor} :
    OuterReturn v w released selector target place stack →
    Marks v (.ret w released) place

/-- The stack that a far instruction may enter to build its frame there. -/
inductive EntersStack (v : FarView) : FarInstruction → SegmentCache → Prop where
  | inner {w : Width} {dest : FarTarget} {gate target stack : Descriptor} {place : StackPointer} :
    InnerCall v dest.selector gate target place stack →
    EntersStack v (.transfer .call w dest) (.ofDescriptor place.selector stack)

end FarInstruction

namespace Exec

variable {H : Type} [Host H]

/-- The far instruction of the indirect group that a mode byte names, with its target. -/
def fetchIndirectFar (p : Prefixes) (w : Width) (m : ModeByte) (place : Operand) :
    Exec H (Option FarInstruction) :=
  match m.reg.toNat with
  | 3 => return some (.transfer .call w (← loadFarTarget p w place))
  | 5 => return some (.transfer .jump w (← loadFarTarget p w place))
  | _ => return none

/-- Takes the operands of a far instruction from the code.  The answer is none for an instruction
that is not far. -/
def fetchFar (p : Prefixes) : Instruction → Exec H (Option FarInstruction)
  | .far transfer => do
    let w ← operandWidth p
    return some (.transfer transfer w (← fetchFarTarget p w))
  | .indirectGroup => do
    let w ← operandWidth p
    let (m, place) ← fetchOperand p
    fetchIndirectFar p w m place
  | .retFar => do
    let w ← operandWidth p
    checkLock p
    return some (.ret w 0)
  | .retFarReleasing => do
    let w ← operandWidth p
    let bytes ← fetchReleased
    checkLock p
    return some (.ret w bytes)
  | _ => return none

end Exec

end Ia32
