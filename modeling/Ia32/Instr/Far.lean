import Ia32.Exec.Tables
import Ia32.Instr.Jump
import Ia32.Instr.Stack

/-!
# Far transfers

Jumps, calls and returns that load the code segment.  In real and virtual-8086
mode the selector is the segment.  In protected mode it names a code segment or
a gate.

A transfer without a gate, and a jump through a gate, keep the privilege level.
A call through a gate may lower it to the level of its target: then the stack
of that level is taken from the task state segment, and a frame with the old
stack, the parameters and the return address is built on it.  A return may go
to a less privileged level, and takes its stack from the frame.

A transfer checks the target, the stack and the gate first.  Only after the last
check and the last store are the registers loaded.
-/

namespace Ia32.Exec

variable {H : Type} [Host H]

/-- What a far transfer does. -/
inductive Transfer where
  /-- It leaves a return address on the stack. -/
  | call
  /-- It does not. -/
  | jump
deriving DecidableEq, Repr

/-! ## Frames -/

/-- The place for `bytes` more bytes on the stack. -/
def reserve (bytes : Nat) : Exec H Dword := do
  let top ← view (·.spPlus (-(BitVec.ofNat 32 bytes)))
  if !(← view (·.segs.ss)).contains top bytes then throw (.stackFault 0)
  return top

/-- The place of value number `k` of a frame. -/
def slot (s : Processor) (w : Width) (top : Dword) (k : Nat) : Dword :=
  s.wrapStack (top + BitVec.ofNat 32 (k * w.bytes))

/-- Stores a return address, and moves the stack pointer there. -/
def storeReturn (w : Width) (top : Dword) : Exec H Unit := do
  store w .ss top (← view (·.eip))
  store w .ss (← view (slot · w top 1)) ((← view (·.segs.cs.selector)).setWidth 32)
  update (·.setSp top)

/-- Reads value number `k` from the top of the stack on. -/
def frameValue (w : Width) (k : Nat) : Exec H Dword := do
  load w .ss (← view fun s => slot s w s.sp k)

/-- Loads the code segment and goes to an offset in it. -/
def enter (cs : SegmentCache) (offset : Dword) : Exec H Unit :=
  update fun s => { s.setSeg .cs cs with eip := offset }

/-! ## Real mode -/

/-- Loads the code segment as real mode does and goes to an offset in it. -/
def enterReal (selector : Word) (offset : Dword) : Exec H Unit :=
  update fun s => { s.loadReal .cs selector with eip := offset }

/-- Refuses an offset of more than 16 bits. -/
def checkRealOffset (offset : Dword) : Exec H Unit :=
  if 0xFFFF < offset then throw (.generalProtection 0) else pure ()

/-- A far transfer in real mode. -/
def transferReal (transfer : Transfer) (w : Width) (selector : Word) (offset : Dword) :
    Exec H Unit := do
  match transfer with
  | .jump => checkRealOffset offset
  | .call =>
    let top ← reserve (2 * w.bytes)
    checkRealOffset offset
    storeReturn w top
  enterReal selector offset

/-- A far return in real mode.  The target is not checked. -/
def returnReal (w : Width) : Exec H Unit := do
  let offset ← frameValue w 0
  let selector ← frameValue w 1
  update fun s => s.setSp (s.spPlus (BitVec.ofNat 32 (2 * w.bytes)))
  enterReal (selector.setWidth 16) offset

/-! ## Code segments -/

/-- Whether code of level `cpl` may go to a code segment without a gate.  Conforming code
runs at the level of its caller, so it may be as privileged or more.  Other code must have the
same level, and the selector may not ask for less privilege. -/
def admitsDirect (selector : Word) (d : Descriptor) (cpl : Byte) : Bool :=
  if d.isConforming then d.dpl ≤ cpl
  else requestedLevel selector ≤ cpl && d.dpl == cpl

/-- A selector with the level `level`. -/
def withLevel (selector : Word) (level : Byte) : Word :=
  (selector &&& 0xFFFC) ||| level.setWidth 16

/-- Goes to a code segment without a change of stacks.  A call leaves a return address of the
width `frame`. -/
def enterCode (selector : Word) (d : Descriptor) (level : Byte) (offset : Dword)
    (frame : Option Width) : Exec H Unit := do
  let top? ← frame.mapM fun w => reserve (2 * w.bytes)
  let cs := SegmentCache.ofDescriptor (withLevel selector level) d
  if !cs.contains offset 1 then throw (.generalProtection 0)
  markAccessed selector
  match frame, top? with
  | some w, some top => storeReturn w top
  | _, _ => pure ()
  enter cs offset

/-- Goes to a code segment that a selector names. -/
def enterDirect (transfer : Transfer) (w : Width) (selector : Word) (d : Descriptor)
    (offset : Dword) : Exec H Unit := do
  let cpl ← view (·.cpl)
  if !admitsDirect selector d cpl then throw (Fault.protectionAt selector)
  if !d.isPresent then throw (Fault.notPresentAt selector)
  enterCode selector d cpl offset (if transfer = .call then some w else none)

/-! ## Gates -/

/-- A code segment that a gate leads to. -/
structure GateTarget where
  /-- Its selector. -/
  selector : Word
  /-- Its descriptor. -/
  descriptor : Descriptor
deriving DecidableEq, Repr

/-- The target of a gate that the program may use. -/
def gateTarget (gateSelector : Word) (gate : Descriptor) : Exec H GateTarget := do
  let cpl ← view (·.cpl)
  if gate.dpl < cpl || gate.dpl < requestedLevel gateSelector then
    throw (Fault.protectionAt gateSelector)
  if !gate.isPresent then throw (Fault.notPresentAt gateSelector)
  let selector := gate.gateSelector
  if isNullSelector selector then throw (.generalProtection 0)
  let d ← readDescriptor selector
  if !d.isCode || cpl < d.dpl then throw (Fault.protectionAt selector)
  return ⟨selector, d⟩

/-- The width of the frames that a gate builds. -/
def gateWidth (gate : Descriptor) : Width := if gate.isCallGate32 then .dword else .word

/-! ## Calls to a more privileged level -/

/-- Reads the descriptor of a stack that the task state segment names. -/
def readStackDescriptor (selector : Word) : Exec H Descriptor :=
  try readDescriptor selector catch fault =>
    match fault with
    | .generalProtection _ => throw (Fault.invalidTssAt selector)
    | other => throw other

/-- A stack segment that is not loaded yet, and the stack pointer for it. -/
structure NewStack where
  /-- The segment. -/
  cache : SegmentCache
  /-- The stack pointer. -/
  esp : Dword
deriving DecidableEq, Repr

/-- The stack for a level. -/
def innerStack (level : Byte) : Exec H NewStack := do
  let stack ← taskStack level
  let selector := stack.selector
  if isNullSelector selector then throw (Fault.invalidTssAt selector)
  let d ← readStackDescriptor selector
  if requestedLevel selector != level || d.dpl != level || !d.isWritableData then
    throw (Fault.invalidTssAt selector)
  if !d.isPresent then throw (Fault.stackAt selector)
  return ⟨.ofDescriptor selector d, stack.offset⟩

/-- An offset cut to the width of a stack. -/
def NewStack.wrap (stack : NewStack) (offset : Dword) : Dword :=
  if stack.cache.is32 then offset else offset &&& 0xFFFF

/-- The place for a frame of `bytes` bytes. -/
def NewStack.top (stack : NewStack) (bytes : Nat) : Dword :=
  stack.wrap (stack.esp - BitVec.ofNat 32 bytes)

/-- The place of value number `k` of a frame. -/
def NewStack.slot (stack : NewStack) (w : Width) (top : Dword) (k : Nat) : Dword :=
  stack.wrap (top + BitVec.ofNat 32 (k * w.bytes))

/-- The values of a frame with their numbers, in the order in which they are stored: the old
stack, the parameters, and the return address. -/
def frameValues (s : Processor) (parameters : List Dword) : List (Dword × Nat) :=
  let n := parameters.length
  [(s.segs.ss.selector.setWidth 32, n + 3), (s.reg .dword Reg.esp, n + 2)]
    ++ parameters.zipIdx 2
    ++ [(s.segs.cs.selector.setWidth 32, 1), (s.eip, 0)]

/-- Stores the values of a frame. -/
def storeFrame (w : Width) (stack : NewStack) (top : Dword) : List (Dword × Nat) → Exec H Unit
  | [] => pure ()
  | (value, k) :: rest => do
    storeThrough w stack.cache (stack.slot w top k) value
    storeFrame w stack top rest

/-- The message about a call to a more privileged level. -/
def gateMessage (s : Processor) (level : Byte) (stack : NewStack) (top : Dword) : String :=
  let selector := Hex.upper 4 stack.cache.selector.toNat
  let top := Hex.upper 8 top.toNat
  s!"call gate: CPL {s.cpl.toNat} -> {level.toNat}, stack {selector}:{top}"

/-- Calls a more privileged code segment: builds a frame on the stack of its level and goes
there. -/
def callInner (target : GateTarget) (w : Width) (offset : Dword) (count : Nat) :
    Exec H Unit := do
  let level := target.descriptor.dpl
  let stack ← innerStack level
  let bytes := w.bytes * (4 + count)
  let top := stack.top bytes
  if !stack.cache.contains top bytes then throw (Fault.stackAt stack.cache.selector)
  let cs := SegmentCache.ofDescriptor (withLevel target.selector level) target.descriptor
  if !cs.contains offset 1 then throw (.generalProtection 0)
  let parameters ← stackValues w count 0
  markAccessed target.selector
  markAccessed stack.cache.selector
  storeFrame w stack top (← view (frameValues · parameters))
  note .cpu .debug fun m => gateMessage m.toProcessor level stack top
  update fun s => ((s.setSeg .ss stack.cache).setReg .dword Reg.esp stack.esp).setSp top
  enter cs offset

/-- Calls through a gate. -/
def callGate (gateSelector : Word) (gate : Descriptor) : Exec H Unit := do
  let target ← gateTarget gateSelector gate
  let d := target.descriptor
  if !d.isPresent then throw (Fault.notPresentAt target.selector)
  let cpl ← view (·.cpl)
  if !d.isConforming && d.dpl < cpl then
    callInner target (gateWidth gate) gate.callTarget gate.gateParameters
  else enterCode target.selector d cpl gate.callTarget (some (gateWidth gate))

/-- Jumps through a gate. -/
def jumpGate (gateSelector : Word) (gate : Descriptor) : Exec H Unit := do
  let target ← gateTarget gateSelector gate
  let d := target.descriptor
  let cpl ← view (·.cpl)
  if !d.isConforming && d.dpl != cpl then throw (Fault.protectionAt target.selector)
  if !d.isPresent then throw (Fault.notPresentAt target.selector)
  enterCode target.selector d cpl gate.callTarget none

/-! ## Calls and jumps -/

/-- A far transfer in protected mode. -/
def transferProtected (transfer : Transfer) (w : Width) (selector : Word) (offset : Dword) :
    Exec H Unit := do
  if isNullSelector selector then throw (.generalProtection 0)
  let d ← readDescriptor selector
  if d.isCode then enterDirect transfer w selector d offset
  else if d.isCallGate then
    match transfer with
    | .call => callGate selector d
    | .jump => jumpGate selector d
  else if d.isTaskGate then throw (.unimplemented .taskGate)
  else if d.isTss then throw (.unimplemented .taskState)
  else throw (Fault.protectionAt selector)

/-- A far transfer. -/
def transferFar (transfer : Transfer) (w : Width) (selector : Word) (offset : Dword) :
    Exec H Unit := do
  if ← view (·.usesDescriptors) then transferProtected transfer w selector offset
  else transferReal transfer w selector offset

/-- Where a far transfer goes. -/
structure FarTarget where
  /-- The selector. -/
  selector : Word
  /-- The offset. -/
  offset : Dword
deriving DecidableEq, Repr

/-- Takes a far target from the code. -/
def fetchFarTarget (p : Prefixes) (w : Width) : Exec H FarTarget := do
  let offset ← fetch w
  let selector ← fetch .word
  checkLock p
  return ⟨selector.setWidth 16, offset⟩

/-- A far transfer to a target that follows in the code. -/
def farImmediate (p : Prefixes) (w : Width) (transfer : Transfer) : Exec H Unit := do
  let target ← fetchFarTarget p w
  transferFar transfer w target.selector target.offset

/-! ## Returns -/

/-- Whether code of level `cpl` may return to a code segment: not to a more privileged one. -/
def admitsReturn (selector : Word) (d : Descriptor) (cpl : Byte) : Bool :=
  let level := requestedLevel selector
  cpl ≤ level && if d.isConforming then d.dpl ≤ level else d.dpl == level

/-- Clears the data segments that code of a level may not use. -/
def clearPrivileged (level : Byte) (s : Processor) : Processor :=
  [Seg.es, .fs, .gs, .ds].foldl (fun s seg => s.setSeg seg ((s.segs.get seg).afterReturnTo level)) s

/-- Returns to a less privileged level.  The stack of that level stands in the frame above the
bytes to be released. -/
def returnOuter (w : Width) (selector : Word) (d : Descriptor) (released : Word) :
    Exec H Unit := do
  let level := requestedLevel selector
  if !(← view fun s => s.segs.ss.contains s.sp (4 * w.bytes + released.toNat)) then
    throw (.stackFault 0)
  let above (k : Nat) (s : Processor) : Dword :=
    s.wrapStack (s.sp + BitVec.ofNat 32 (k * w.bytes + released.toNat))
  let offset ← frameValue w 0
  let esp ← load w .ss (← view (above 2))
  let stackSelector := (← load w .ss (← view (above 3))).setWidth 16
  if isNullSelector stackSelector then throw (.generalProtection 0)
  let stack ← readDescriptor stackSelector
  if requestedLevel stackSelector != level || stack.dpl != level || !stack.isWritableData then
    throw (Fault.protectionAt stackSelector)
  if !stack.isPresent then throw (Fault.stackAt stackSelector)
  let cs := SegmentCache.ofDescriptor selector d
  if !cs.contains offset 1 then throw (.generalProtection 0)
  markAccessed selector
  markAccessed stackSelector
  enter cs offset
  update fun s =>
    clearPrivileged cs.pl
      ((s.setReg w Reg.esp esp).setSeg .ss (.ofDescriptor stackSelector stack))

/-- Returns to the same level. -/
def returnSame (w : Width) (selector : Word) (d : Descriptor) : Exec H Unit := do
  let offset ← frameValue w 0
  let cs := SegmentCache.ofDescriptor selector d
  if !cs.contains offset 1 then throw (.generalProtection 0)
  markAccessed selector
  update fun s => s.setSp (s.spPlus (BitVec.ofNat 32 (2 * w.bytes)))
  enter cs offset

/-- A far return in protected mode. -/
def returnProtected (w : Width) (released : Word) : Exec H Unit := do
  if !(← view fun s => s.segs.ss.contains s.sp (2 * w.bytes)) then throw (.stackFault 0)
  let selector := (← frameValue w 1).setWidth 16
  if isNullSelector selector then throw (.generalProtection 0)
  let d ← readDescriptor selector
  let cpl ← view (·.cpl)
  if !d.isCode || !admitsReturn selector d cpl then throw (Fault.protectionAt selector)
  if !d.isPresent then throw (Fault.notPresentAt selector)
  if cpl < requestedLevel selector then returnOuter w selector d released
  else returnSame w selector d

/-- A far return.  The bytes to be released stay. -/
def returnFar (w : Width) (released : Word) : Exec H Unit := do
  if ← view (·.usesDescriptors) then returnProtected w released else returnReal w

/-- Returns far. -/
def retFar (p : Prefixes) (w : Width) : Exec H Unit := do
  checkLock p
  returnFar w 0

/-- Returns far and releases as many bytes of the stack as the code says. -/
def retFarReleasing (p : Prefixes) (w : Width) : Exec H Unit := do
  let bytes ← fetchReleased
  checkLock p
  returnFar w bytes
  release bytes

end Ia32.Exec
