import Ia32.Instr.Fpu.Run
import Ia32.Proofs.Access

/-!
# Effects of floating-point instructions

Checks and exceptions change the status of the unit alone.  A program that only
computes changes the unit and never faults.  A store of a number goes to memory
before anything is popped, so that a fault of the store leaves the registers of
the unit as they were.
-/

namespace Ia32

namespace Effect

/-- The effect of a program that raises exceptions of the unit. -/
def raises : Effect := changes [.floatStatus]

/-- The effect of a program that computes with the unit. -/
def floats : Effect := changes [.floatStatus, .float]

/-- The effect of a program that computes with the unit on what it reads. -/
def loadsFloat : Effect := ⟨[.floatStatus, .float], some [], none⟩

/-- The effect of a program that stores a number. -/
def storesFloat : Effect :=
  ⟨[.floatStatus, .float, .memory], some [.floatStatus, .tornMemory], none⟩

/-- The effect of a floating-point instruction. -/
def floatInstruction : Effect :=
  ⟨[.floatStatus, .float, .memory, .registers], some [.floatStatus, .tornMemory], some []⟩

instance mayFault_loadsFloat : MayFault loadsFloat := mayFault_mk [.floatStatus, .float] [] none

instance mayFault_storesFloat : MayFault storesFloat :=
  mayFault_mk [.floatStatus, .float, .memory] [.floatStatus, .tornMemory] none

instance mayRefuse_floatInstruction : MayRefuse floatInstruction :=
  mayRefuse_mk [.floatStatus, .float, .memory, .registers] [.floatStatus, .tornMemory] []

instance raises_absorbs_raises : Absorbs raises raises := ⟨by decide⟩

instance floats_absorbs_raises : Absorbs floats raises := ⟨by decide⟩

instance floats_absorbs_floats : Absorbs floats floats := ⟨by decide⟩

instance storesFloat_absorbs_raises : Absorbs storesFloat raises := ⟨by decide⟩

end Effect

open Host

/-! ## The unit -/

/-- Two states of the unit differ in the status at most. -/
def Fpu.SameButStatus (f f' : Fpu) : Prop := ∃ status, f' = { f with status := status }

namespace Fpu

/-- Condition bits are bits of the status word. -/
theorem sameButStatus_setCondition (f : Fpu) (bits : Word) (on : Bool) :
    f.SameButStatus (f.setCondition bits on) := ⟨_, rfl⟩

theorem SameButStatus.trans {f f' f'' : Fpu} (h : f.SameButStatus f') (h' : f'.SameButStatus f'') :
    f.SameButStatus f'' := by
  obtain ⟨status, rfl⟩ := h
  obtain ⟨status', rfl⟩ := h'
  exact ⟨status', rfl⟩

/-- A raised exception sets its flag, and the summary and busy bits if it is unmasked.  All three
stand in the status word. -/
theorem sameButStatus_raise (f : Fpu) (bits : Word) : f.SameButStatus (f.raise bits).2 := by
  unfold raise
  dsimp only
  split
  · exact (sameButStatus_setCondition f bits true).trans (sameButStatus_setCondition ..)
  · exact sameButStatus_setCondition f bits true

end Fpu

namespace Exec

variable {H : Type} [Host H]

/-- Any change of the unit stays within the unit, so that whatever else a footprint keeps is kept.
-/
theorem fpu_agree {permits : H → Dword → List Byte → Prop} (m : Machine H) (fpu : Fpu) :
    Agree permits [.floatStatus, .float] m { m with fpu := fpu } :=
  .ofFloat _ m fpu (.inl (by decide))

/-- A change of the status word alone has the smaller footprint: tags, registers and control word
stay. -/
theorem status_agree {permits : H → Dword → List Byte → Prop} (m : Machine H) {fpu : Fpu}
    (h : m.fpu.SameButStatus fpu) : Agree permits [.floatStatus] m { m with fpu := fpu } :=
  .ofFloat _ m fpu (.inr (.inl ⟨List.mem_singleton_self _, h⟩))

theorem updateFpu_hasEffect (f : Fpu → Fpu) :
    HasEffect .floats (updateFpu f : Exec H Unit) := .update fun _ m => fpu_agree m _

/-- An update that reaches no further than the status word counts as an exception does. -/
theorem updateStatus_hasEffect {f : Fpu → Fpu} (hf : ∀ fpu : Fpu, fpu.SameButStatus (f fpu)) :
    HasEffect .raises (updateFpu f : Exec H Unit) := .update fun _ m => status_agree m (hf m.fpu)

/-- A lock and an absent unit are refused before anything changes. -/
theorem checkAvailable_hasEffect (p : Prefixes) :
    HasEffect .checks (checkAvailable p : Exec H Unit) := by
  refine .andThen (checkLock_hasEffect p) fun _ => .skip (.view _) fun absent => ?_
  exact .ite .throw (.pure _)

/-- A pending exception is refused too.  Only when all is well is condition one cleared, which is
why the refusal leaves no trace while the answer touches the status. -/
theorem checkReady_hasEffect (p : Prefixes) :
    HasEffect ⟨[.floatStatus], some [], some []⟩ (checkReady p : Exec H Unit) := by
  refine .andThen (checkAvailable_hasEffect p) fun _ => .skip (.view _) fun pending => ?_
  have hc : HasEffect ⟨[.floatStatus], some [], some []⟩
      (updateFpu (·.setCondition Status.c1 false) : Exec H Unit) :=
    (updateStatus_hasEffect fun f => f.sameButStatus_setCondition _ false).weaken (by decide)
  exact .when (.throwLoud rfl) (fun _ => hc) hc

end Exec

/-! ## Programs that an exception may stop -/

namespace FloatExec

variable {H : Type} [Host H] {α β : Type}

/-- A program that an exception may stop changes no more than an effect says, stopped or not. -/
def HasEffect (e : Effect) (x : FloatExec H α) : Prop := Exec.HasEffect e x.run

namespace HasEffect

variable {e e₁ e₂ : Effect}

/-- An effect may be taken for a larger one. -/
theorem weaken {x : FloatExec H α} (hx : HasEffect e₁ x) (hw : e₁.Within e) : HasEffect e x :=
  Exec.HasEffect.weaken hx hw

/-- What follows a step that stops is left out. -/
theorem bind {x : FloatExec H β} {k : β → FloatExec H α} (hx : HasEffect e₁ x)
    (hk : ∀ b, HasEffect e₂ (k b)) (hw : (e₁.seq e₂).Within e) : HasEffect e (x >>= k) := by
  refine Exec.HasEffect.bind hx (fun b? => ?_) hw
  cases b? with
  | some b => exact hk b
  | none => exact .pure _

/-- The first step adds nothing to the effect of the whole. -/
theorem andThen [he : e.Absorbs e₁] {x : FloatExec H β} {k : β → FloatExec H α}
    (hx : HasEffect e₁ x) (hk : ∀ b, HasEffect e (k b)) : HasEffect e (x >>= k) :=
  bind hx hk he.within

/-- A sequence whose first step neither changes anything nor faults. -/
theorem skip {x : FloatExec H β} {k : β → FloatExec H α} (hx : HasEffect .silent x)
    (hk : ∀ b, HasEffect e (k b)) : HasEffect e (x >>= k) := by
  refine Exec.HasEffect.skip hx fun b? => ?_
  cases b? with
  | some b => exact hk b
  | none => exact .pure _

theorem pure (a : α) : HasEffect e (Pure.pure a : FloatExec H α) := Exec.HasEffect.pure _

/-- A program that stops at once changes nothing. -/
theorem failure : HasEffect e (Alternative.failure : FloatExec H α) := Exec.HasEffect.pure _

/-- A step of the machine that cannot stop has the same effect among programs that can. -/
theorem lift {x : Exec H α} (hx : Exec.HasEffect e x) : HasEffect e (x : FloatExec H α) :=
  hx.map some

theorem ite {c : Prop} [Decidable c] {x y : FloatExec H α} (hx : HasEffect e x)
    (hy : HasEffect e y) : HasEffect e (if c then x else y) := by
  split
  · exact hx
  · exact hy

/-- A step that is left out under a condition. -/
theorem when [e.Absorbs e₁] {c : Prop} [Decidable c] {x : FloatExec H β} {k : β → FloatExec H α}
    {y : FloatExec H α} (hx : HasEffect e₁ x) (hk : ∀ b, HasEffect e (k b)) (hy : HasEffect e y) :
    HasEffect e (if c then x >>= k else y) :=
  ite (andThen hx hk) hy

/-- The instruction that runs such a program ends normally, stopped or not. -/
theorem toExec {x : FloatExec H Unit} (hx : HasEffect e x) : Exec.HasEffect e x.toExec :=
  Exec.HasEffect.map hx fun _ => ()

end HasEffect

theorem view_hasEffect (f : Fpu → α) : HasEffect .silent (view f : FloatExec H α) :=
  .lift (.view _)

theorem update_hasEffect (f : Fpu → Fpu) : HasEffect .floats (update f : FloatExec H Unit) :=
  .lift (Exec.updateFpu_hasEffect f)

theorem updateStatus_hasEffect {f : Fpu → Fpu} (hf : ∀ fpu : Fpu, fpu.SameButStatus (f fpu)) :
    HasEffect .raises (update f : FloatExec H Unit) :=
  .lift (Exec.updateStatus_hasEffect hf)

theorem setCondition_hasEffect (bits : Word) (on : Bool) :
    HasEffect .raises (update (·.setCondition bits on) : FloatExec H Unit) :=
  updateStatus_hasEffect fun f => f.sameButStatus_setCondition bits on

/-! ## Exceptions -/

/-- The exception is recorded first; whether the program then stops changes nothing more. -/
theorem raise_hasEffect (p : Prefixes) (bits : Word) :
    HasEffect .raises (raise p bits : FloatExec H Unit) := by
  have hr : Exec.HasEffect .raises (record bits : Exec H Bool) :=
    .updateWith fun _ m => Exec.status_agree m (m.fpu.sameButStatus_raise bits)
  refine .andThen (.lift hr) fun stops => .ite ?_ (.pure _)
  exact .skip (.lift (.note ..)) fun _ => .failure

theorem raiseIfAmong_hasEffect (p : Prefixes) (exceptions bit : Word) :
    HasEffect .raises (raiseIfAmong p exceptions bit : FloatExec H Unit) :=
  .ite (.pure _) (raise_hasEffect p bit)

/-- Several exceptions touch the status alone, however many of them are raised before one stops the
program. -/
theorem raiseEach_hasEffect (p : Prefixes) (exceptions : Word) (bits : List Word) :
    HasEffect .raises (raiseEach p exceptions bits : FloatExec H Unit) := by
  induction bits with
  | nil => exact .pure _
  | cons bit bits ih =>
    unfold raiseEach
    extract_lets rest raised
    have hr : ∀ u, HasEffect .raises (raised u) := fun _ =>
      .andThen (raise_hasEffect p bit) fun _ => ih
    refine .ite ?_ ih
    exact .when (setCondition_hasEffect Status.c1 false) hr (hr ())

theorem raiseAfter_hasEffect (p : Prefixes) (exceptions : Word) :
    HasEffect .raises (raiseAfter p exceptions : FloatExec H Unit) :=
  raiseEach_hasEffect p exceptions _

/-- An empty register is an exception like any other: it clears condition one and stops or goes on.
-/
theorem requireFull_hasEffect (p : Prefixes) (i : Nat) :
    HasEffect .raises (requireFull p i : FloatExec H Unit) := by
  refine .skip (view_hasEffect _) fun tag => .ite ?_ (.pure _)
  exact .andThen (setCondition_hasEffect Status.c1 false) fun _ =>
    raise_hasEffect p stackExceptions

/-- A full register where there should be room sets condition one instead. -/
theorem requireRoom_hasEffect (p : Prefixes) :
    HasEffect .raises (requireRoom p : FloatExec H Unit) := by
  refine .skip (view_hasEffect _) fun tag => .ite ?_ (.pure _)
  exact .andThen (setCondition_hasEffect Status.c1 true) fun _ =>
    raise_hasEffect p stackExceptions

theorem popIf_hasEffect (pops : Bool) : HasEffect .floats (popIf pops : FloatExec H Unit) :=
  .ite (update_hasEffect Fpu.pop) (.pure _)

theorem checkDenormal_hasEffect (p : Prefixes) (x : Extended) :
    HasEffect .raises (checkDenormal p x : FloatExec H Unit) :=
  .ite (raise_hasEffect p _) (.pure _)

/-- Invalid and denormal operands are told apart, but both touch the status alone. -/
theorem checkOperand_hasEffect (p : Prefixes) (x : Extended) (denormal : Bool) :
    HasEffect .raises (checkOperand p x denormal : FloatExec H Unit) :=
  .ite (raise_hasEffect p _) (.ite (raise_hasEffect p _) (.pure _))

/-! ## Arithmetic -/

/-- A zero divisor is only looked for where an operation divides. -/
theorem checkDivisor_hasEffect (p : Prefixes) (op : FloatOp) (a b : Extended) :
    HasEffect .raises (checkDivisor p op a b : FloatExec H Unit) := by
  unfold checkDivisor
  split
  · exact .skip (.lift .get) fun m => .ite (raise_hasEffect p _) (.pure _)
  · exact .pure _

/-- A result is in its register before its exceptions are raised, so that a stop does not undo it.
-/
theorem storeResult_hasEffect (p : Prefixes) (i : Nat) (r : Rounded) :
    HasEffect .floats (storeResult p i r : FloatExec H Unit) :=
  .bind (update_hasEffect _) (fun _ => raiseAfter_hasEffect p r.exceptions) (by decide)

/-- An operation with its operands at hand changes one register and the status. -/
theorem arith_hasEffect (p : Prefixes) (op : FloatOp) (i : Nat) (a b : Extended) :
    HasEffect .floats (arith p op i a b : FloatExec H Unit) := by
  refine .andThen (checkDivisor_hasEffect p op a b) fun _ => ?_
  exact .skip (view_hasEffect _) fun mode => storeResult_hasEffect p i _

theorem arithLoaded_hasEffect (p : Prefixes) (op : FloatOp) (loaded : Loaded) :
    HasEffect .floats (arithLoaded p op loaded : FloatExec H Unit) := by
  refine .andThen (requireFull_hasEffect p 0) fun _ => ?_
  have ha : HasEffect .floats (do arith p op 0 (← view (·.value 0)) loaded.value : FloatExec H Unit) :=
    .skip (view_hasEffect _) fun a => arith_hasEffect p op 0 a loaded.value
  exact .when (raise_hasEffect p _) (fun _ => ha) ha

theorem arithTop_hasEffect (p : Prefixes) (op : FloatOp) (i : Nat) :
    HasEffect .floats (arithTop p op i : FloatExec H Unit) := by
  refine .andThen (requireFull_hasEffect p 0) fun _ => ?_
  refine .andThen (requireFull_hasEffect p i) fun _ => ?_
  exact .skip (view_hasEffect _) fun a => .skip (view_hasEffect _) fun b => arith_hasEffect p op 0 a b

theorem arithInto_hasEffect (p : Prefixes) (op : FloatOp) (i : Nat) (pops : Bool) :
    HasEffect .floats (arithInto p op i pops : FloatExec H Unit) := by
  refine .andThen (requireFull_hasEffect p 0) fun _ => ?_
  refine .andThen (requireFull_hasEffect p i) fun _ => ?_
  refine .skip (view_hasEffect _) fun a => .skip (view_hasEffect _) fun b => ?_
  exact .andThen (arith_hasEffect p op i a b) fun _ => popIf_hasEffect pops

/-! ## Comparisons -/

/-- The answer of a comparison is four condition bits. -/
theorem setComparison_hasEffect (bits : Word) :
    HasEffect .raises (setComparison bits : FloatExec H Unit) :=
  updateStatus_hasEffect fun f =>
    (f.sameButStatus_setCondition Status.comparison false).trans
      (Fpu.sameButStatus_setCondition _ bits true)

theorem compareLoaded_hasEffect (p : Prefixes) (loaded : Loaded) (pops : Bool) :
    HasEffect .floats (compareLoaded p loaded pops : FloatExec H Unit) := by
  refine .andThen (setComparison_hasEffect Status.comparison) fun _ => ?_
  refine .andThen (requireFull_hasEffect p 0) fun _ => ?_
  refine .skip (view_hasEffect _) fun a => ?_
  refine .andThen (checkOperand_hasEffect p a false) fun _ => ?_
  refine .andThen (checkOperand_hasEffect p loaded.value loaded.denormal) fun _ => ?_
  exact .andThen (setComparison_hasEffect _) fun _ => popIf_hasEffect pops

/-- A comparison pops what it is told to only if no operand has stopped it. -/
theorem compare_hasEffect (p : Prefixes) (i pops : Nat) :
    HasEffect .floats (compare p i pops : FloatExec H Unit) := by
  refine .andThen (requireFull_hasEffect p 0) fun _ => ?_
  refine .andThen (requireFull_hasEffect p i) fun _ => ?_
  refine .andThen (setComparison_hasEffect Status.comparison) fun _ => ?_
  refine .skip (view_hasEffect _) fun a => .skip (view_hasEffect _) fun b => ?_
  refine .andThen (checkOperand_hasEffect p a false) fun _ => ?_
  refine .andThen (checkOperand_hasEffect p b false) fun _ => ?_
  exact .andThen (setComparison_hasEffect _) fun _ => update_hasEffect _

theorem test_hasEffect (p : Prefixes) : HasEffect .floats (test p : FloatExec H Unit) := by
  refine .andThen (setComparison_hasEffect Status.comparison) fun _ => ?_
  refine .andThen (requireFull_hasEffect p 0) fun _ => ?_
  refine .skip (view_hasEffect _) fun a => ?_
  refine .andThen (checkOperand_hasEffect p a false) fun _ => ?_
  exact (setComparison_hasEffect _).weaken (by decide)

/-- Classes of numbers are told by condition bits, for an empty register as well. -/
theorem examine_hasEffect : HasEffect .floats (examine : FloatExec H Unit) := by
  refine .skip (view_hasEffect _) fun x => ?_
  refine .andThen (setCondition_hasEffect Status.c1 x.sign) fun _ => ?_
  refine .skip (view_hasEffect _) fun tag => .ite ?_ ?_
  · exact (setComparison_hasEffect _).weaken (by decide)
  · exact (setComparison_hasEffect _).weaken (by decide)

/-! ## Functions -/

/-- A change of sign raises nothing but the exception of an empty register. -/
theorem mapTop_hasEffect (p : Prefixes) (f : Extended → Extended) :
    HasEffect .floats (mapTop p f : FloatExec H Unit) := by
  refine .andThen (requireFull_hasEffect p 0) fun _ => ?_
  exact .skip (view_hasEffect _) fun x => update_hasEffect _

theorem sqrt_hasEffect (p : Prefixes) : HasEffect .floats (sqrt p : FloatExec H Unit) := by
  refine .andThen (requireFull_hasEffect p 0) fun _ => ?_
  refine .skip (view_hasEffect _) fun x => ?_
  refine .andThen (checkDenormal_hasEffect p x) fun _ => ?_
  exact .skip (view_hasEffect _) fun mode => storeResult_hasEffect p 0 _

theorem roundToIntegral_hasEffect (p : Prefixes) :
    HasEffect .floats (roundToIntegral p : FloatExec H Unit) := by
  refine .andThen (requireFull_hasEffect p 0) fun _ => ?_
  refine .skip (view_hasEffect _) fun x => .ite ?_ ?_
  · exact .when (raise_hasEffect p _) (fun _ => update_hasEffect _) (update_hasEffect _)
  · refine .andThen (checkDenormal_hasEffect p x) fun _ => ?_
    exact .skip (view_hasEffect _) fun mode => storeResult_hasEffect p 0 _

theorem powerLessOne_hasEffect (p : Prefixes) :
    HasEffect .floats (powerLessOne p : FloatExec H Unit) := by
  refine .andThen (requireFull_hasEffect p 0) fun _ => ?_
  refine .skip (view_hasEffect _) fun x => ?_
  exact .andThen (checkOperand_hasEffect p x false) fun _ => storeResult_hasEffect p 0 _

/-- Whether there is a second result or not, only the unit changes. -/
theorem storeTwice_hasEffect (f : Trig) (x : Extended) :
    HasEffect .floats (storeTwice f x : FloatExec H Unit) :=
  .andThen (update_hasEffect _) fun _ => .ite (update_hasEffect _) (.pure _)

theorem trigFinite_hasEffect (p : Prefixes) (f : Trig) (x : Extended) :
    HasEffect .floats (trigFinite p f x : FloatExec H Unit) := by
  refine .andThen (setCondition_hasEffect Status.c2 false) fun _ => ?_
  refine .andThen (checkDenormal_hasEffect p x) fun _ => ?_
  refine .andThen (storeResult_hasEffect p 0 _) fun _ => ?_
  exact .ite (update_hasEffect _) (.pure _)

/-- Of the trigonometric functions one pushes a second result; it asks for room before it looks at
its operand. -/
theorem trig_hasEffect (p : Prefixes) (f : Trig) :
    HasEffect .floats (trig p f : FloatExec H Unit) := by
  refine .andThen (requireFull_hasEffect p 0) fun _ => ?_
  extract_lets join
  have hj : ∀ u, HasEffect .floats (join u) := fun _ => by
    refine .skip (view_hasEffect _) fun x => .ite ?_ (.ite ?_ (.ite ?_ ?_))
    · exact .when (raise_hasEffect p _) (fun _ => storeTwice_hasEffect f _)
        (storeTwice_hasEffect f _)
    · refine .andThen (raise_hasEffect p _) fun _ => ?_
      refine .andThen (setCondition_hasEffect Status.c2 false) fun _ => ?_
      exact storeTwice_hasEffect f _
    · exact (setCondition_hasEffect Status.c2 true).weaken (by decide)
    · exact trigFinite_hasEffect p f x
  exact .when (requireRoom_hasEffect p) hj (hj ())

theorem scale_hasEffect (p : Prefixes) : HasEffect .floats (scale p : FloatExec H Unit) := by
  refine .andThen (requireFull_hasEffect p 0) fun _ => ?_
  refine .andThen (requireFull_hasEffect p 1) fun _ => ?_
  refine .skip (view_hasEffect _) fun a => .skip (view_hasEffect _) fun b => ?_
  exact .skip (view_hasEffect _) fun mode => storeResult_hasEffect p 0 _

/-- The quotient bits stand in the status, next to the exceptions. -/
theorem remainder_hasEffect (p : Prefixes) :
    HasEffect .floats (remainder p : FloatExec H Unit) := by
  refine .andThen (requireFull_hasEffect p 0) fun _ => ?_
  refine .andThen (requireFull_hasEffect p 1) fun _ => ?_
  refine .skip (view_hasEffect _) fun a => .skip (view_hasEffect _) fun b => ?_
  refine .andThen (checkDenormal_hasEffect p a) fun _ => ?_
  refine .andThen (checkDenormal_hasEffect p b) fun _ => ?_
  refine .andThen (raiseIfAmong_hasEffect p _ _) fun _ => ?_
  refine .andThen (update_hasEffect _) fun _ => ?_
  exact (raiseAfter_hasEffect p _).weaken (by decide)

/-- A function of two operands pops one of them, after its result is stored. -/
theorem combine_hasEffect (p : Prefixes) (f : Extended → Extended → Rounded) :
    HasEffect .floats (combine p f : FloatExec H Unit) := by
  refine .andThen (requireFull_hasEffect p 0) fun _ => ?_
  refine .andThen (requireFull_hasEffect p 1) fun _ => ?_
  refine .skip (view_hasEffect _) fun y => .skip (view_hasEffect _) fun x => ?_
  refine .andThen (raiseIfAmong_hasEffect p _ _) fun _ => ?_
  refine .andThen (raiseIfAmong_hasEffect p _ _) fun _ => ?_
  exact .andThen (storeResult_hasEffect p 1 _) fun _ => update_hasEffect _

/-! ## Loads -/

/-- The room is checked before the value is pushed, and a signalling value may stop the push. -/
theorem load_hasEffect (p : Prefixes) (format : NumberFormat) (loaded : Loaded) :
    HasEffect .floats (load p format loaded : FloatExec H Unit) := by
  refine .andThen (requireRoom_hasEffect p) fun _ => .ite ?_ ?_
  · exact .andThen (raise_hasEffect p _) fun _ => update_hasEffect _
  · exact .when (raise_hasEffect p _) (fun _ => update_hasEffect _) (update_hasEffect _)

theorem loadRegister_hasEffect (p : Prefixes) (i : Nat) :
    HasEffect .floats (loadRegister p i : FloatExec H Unit) := by
  refine .andThen (requireFull_hasEffect p i) fun _ => ?_
  refine .skip (view_hasEffect _) fun x => ?_
  exact .andThen (requireRoom_hasEffect p) fun _ => update_hasEffect _

theorem loadConstant_hasEffect (p : Prefixes) (c : Constant) :
    HasEffect .floats (loadConstant p c : FloatExec H Unit) :=
  .andThen (requireRoom_hasEffect p) fun _ => update_hasEffect _

theorem storeRegister_hasEffect (p : Prefixes) (i : Nat) (pops : Bool) :
    HasEffect .floats (storeRegister p i pops : FloatExec H Unit) := by
  refine .andThen (requireFull_hasEffect p 0) fun _ => ?_
  refine .skip (view_hasEffect _) fun x => ?_
  exact .andThen (update_hasEffect _) fun _ => popIf_hasEffect pops

/-- Both registers must be full for an exchange. -/
theorem exchange_hasEffect (p : Prefixes) (i : Nat) :
    HasEffect .floats (exchange p i : FloatExec H Unit) := by
  refine .andThen (requireFull_hasEffect p 0) fun _ => ?_
  refine .andThen (requireFull_hasEffect p i) fun _ => ?_
  exact .skip (view_hasEffect _) fun a => .skip (view_hasEffect _) fun b => update_hasEffect _

/-! ## Stores -/

/-- The exceptions of a store come before the store, and so they are kept when it faults. -/
theorem raiseStore_hasEffect (p : Prefixes) (exceptions : Word) :
    HasEffect .raises (raiseStore p exceptions : FloatExec H Unit) := by
  refine .andThen (raiseIfAmong_hasEffect p _ _) fun _ => ?_
  refine .andThen (raiseAfter_hasEffect p _) fun _ => .skip (.lift .get) fun m => ?_
  exact .ite (setCondition_hasEffect Status.c1 false) (raiseAfter_hasEffect p _)

/-- The bytes of a number are stored as those of any other value. -/
theorem storeBytes_hasEffect (seg : Seg) (offset : Dword) (bytes : List Byte) :
    HasEffect .writes (storeBytes seg offset bytes : FloatExec H Unit) :=
  .lift (Exec.storeBytes_hasEffect seg offset bytes)

/-- Bytes are stored, and then the unit changes. -/
theorem storeThenFloat_hasEffect (seg : Seg) (offset : Dword) (bytes : List Byte)
    {k : Unit → FloatExec H Unit} (hk : ∀ u, HasEffect .floats (k u)) :
    HasEffect .storesFloat (storeBytes seg offset bytes >>= k) :=
  .bind (storeBytes_hasEffect seg offset bytes) hk (by decide)

/-- The register is popped after the store.  A fault of the store leaves it on the stack. -/
theorem storeReal_hasEffect (p : Prefixes) (seg : Seg) (offset : Dword) (format : RealFormat)
    (pops : Bool) : HasEffect .storesFloat (storeReal p seg offset format pops : FloatExec H Unit) := by
  refine .andThen (requireFull_hasEffect p 0) fun _ => ?_
  refine .skip (view_hasEffect _) fun mode => .skip (view_hasEffect _) fun x => ?_
  refine .andThen (raiseStore_hasEffect p _) fun _ => ?_
  exact storeThenFloat_hasEffect seg offset _ fun _ => popIf_hasEffect pops

/-- A value outside the format is replaced by the indefinite one, unless the exception stops the
store. -/
theorem roundToFormat_hasEffect (p : Prefixes) (format : IntFormat) (x : Extended) :
    HasEffect .raises (roundToFormat p format x : FloatExec H Int) := by
  have hi : HasEffect .raises (do
      raise p Exception.invalid
      return format.least : FloatExec H Int) :=
    .andThen (raise_hasEffect p _) fun _ => .pure _
  refine .skip (view_hasEffect _) fun mode => ?_
  split
  · refine .ite (.when (raiseAfter_hasEffect p _) (fun _ => .pure _) (.pure _)) hi
  · exact hi

theorem storeInt_hasEffect (p : Prefixes) (seg : Seg) (offset : Dword) (format : IntFormat)
    (pops : Bool) : HasEffect .storesFloat (storeInt p seg offset format pops : FloatExec H Unit) := by
  refine .andThen (requireFull_hasEffect p 0) fun _ => ?_
  refine .skip (view_hasEffect _) fun x => ?_
  refine .andThen (roundToFormat_hasEffect p format x) fun n => ?_
  exact storeThenFloat_hasEffect seg offset _ fun _ => popIf_hasEffect pops

/-- The same for packed decimals. -/
theorem roundToDecimal_hasEffect (p : Prefixes) (x : Extended) :
    HasEffect .raises (roundToDecimal p x : FloatExec H (List Byte)) := by
  have hi : HasEffect .raises (do
      raise p Exception.invalid
      return indefiniteDecimal : FloatExec H (List Byte)) :=
    .andThen (raise_hasEffect p _) fun _ => .pure _
  refine .ite hi (.skip (view_hasEffect _) fun mode => ?_)
  obtain ⟨_ | n, inexact⟩ := x.toInt? mode
  · exact .when (raiseAfter_hasEffect p _) (fun _ => hi) hi
  · exact .when (raiseAfter_hasEffect p _) (fun _ => .ite (.pure _) hi)
      (.ite (.pure _) hi)

theorem storeDecimal_hasEffect (p : Prefixes) (seg : Seg) (offset : Dword) :
    HasEffect .storesFloat (storeDecimal p seg offset : FloatExec H Unit) := by
  refine .andThen (requireFull_hasEffect p 0) fun _ => ?_
  refine .skip (view_hasEffect _) fun x => ?_
  refine .andThen (roundToDecimal_hasEffect p x) fun bytes => ?_
  exact storeThenFloat_hasEffect seg offset bytes fun _ => update_hasEffect Fpu.pop

end FloatExec

/-! ## Instructions with an operand in memory -/

/-- Whether an instruction has its operand in memory. -/
def FloatInstruction.hasMemoryOperand : FloatInstruction → Bool
  | .arithMemory .. | .compareMemory .. | .load _ | .storeReal .. | .storeInt .. | .storeDecimal
  | .loadControl | .storeControl | .storeStatus | .save | .restore => true
  | _ => false

/-- No mode byte that names a register leads to an instruction with an operand in memory. -/
theorem FloatInstruction.ofRegister_memory (escape reg rm : BitVec 3) :
    (match ofRegister escape reg rm with
      | .ok instruction => instruction.hasMemoryOperand
      | .error _ => false) = false := by
  revert escape reg rm
  decide +kernel

/-- A mode byte that led to such an instruction names no register. -/
theorem FloatInstruction.isRegister_of_decode {escape : BitVec 3} {m : ModeByte}
    {instruction : FloatInstruction} (hd : decode escape m = .ok instruction)
    (hi : instruction.hasMemoryOperand = true) : m.isRegister = false := by
  cases hr : m.isRegister with
  | false => rfl
  | true =>
    have := ofRegister_memory escape m.reg m.rm
    simp only [decode, hr, if_true] at hd
    simp [hd, hi] at this

namespace Exec

variable {H : Type} [Host H]

/-- The operand of a mode byte that names no register is in memory. -/
theorem operand_ends_memory (p : Prefixes) {mb : ModeByte} (hm : mb.isRegister = false)
    (m : Machine H) : Ends (operand p mb) m (fun place _ => place.isMemory) (fun _ _ => True) := by
  unfold operand
  rw [hm, if_neg Bool.false_ne_true]
  extract_lets join
  have hj : ∀ {x : Exec H (Seg × Dword)} (m : Machine H),
      Ends (x >>= join) m (fun place _ => place.isMemory) (fun _ _ => True) := by
    intro x m
    rw [ends_bind]
    unfold Ends
    split
    · exact rfl
    · trivial
  simp only [ends_bind, ends_view, ends_ite]
  exact ⟨fun _ => ends_bind.mp (hj m), fun _ => ends_bind.mp (hj m)⟩

/-- To find an operand in memory only reads the code. -/
theorem memoryOperand_hasEffect (p : Prefixes) {mb : ModeByte} (hm : mb.isRegister = false) :
    HasEffect .reads (memoryOperand p mb : Exec H (Seg × Dword)) := by
  intro permits m hc
  rw [memoryOperand, ends_bind]
  refine ((operand_hasEffect p mb hc).and (operand_ends_memory p hm m)).mono ?_ fun _ _ h => h.1
  rintro (_ | _) m' ⟨ha, hp⟩
  · cases hp
  · exact ha

/-! ## Instructions -/

/-- An instruction without an operand in memory can be refused, but has no other fault. -/
theorem whenReady_hasEffect (p : Prefixes) {action : FloatExec H Unit}
    (ha : FloatExec.HasEffect .floats action) :
    HasEffect .floatInstruction (whenReady p action : Exec H Unit) :=
  .bind (checkReady_hasEffect p) (fun _ => ha.toExec) (by decide)

/-- An instruction that reads a number: it is read before the unit changes, so that a fault of the
read has changed nothing but condition one. -/
theorem withNumber_hasEffect (p : Prefixes) {mb : ModeByte} (hm : mb.isRegister = false)
    (format : NumberFormat) {action : FloatExec.Loaded → FloatExec H Unit}
    (ha : ∀ loaded, FloatExec.HasEffect .floats (action loaded)) :
    HasEffect .floatInstruction (withNumber p mb format action : Exec H Unit) := by
  refine .bind (checkReady_hasEffect p) (fun _ => (?_ : HasEffect .loadsFloat _)) (by decide)
  refine .andThen (memoryOperand_hasEffect p hm) fun place => ?_
  have hl : Observes (FloatExec.readNumber place.1 place.2 format : Exec H FloatExec.Loaded) :=
    .bind (loadBytes_observes place.1 place.2 format.bytes) fun _ => .pure _
  exact .bind hl.hasEffect (fun loaded => (ha loaded).toExec) (by decide)

/-- An instruction that stores: a fault of the store keeps the exceptions that came before it. -/
theorem withPlace_hasEffect (p : Prefixes) {mb : ModeByte} (hm : mb.isRegister = false)
    {action : Seg → Dword → FloatExec H Unit}
    (ha : ∀ seg offset, FloatExec.HasEffect .storesFloat (action seg offset)) :
    HasEffect .floatInstruction (withPlace p mb action : Exec H Unit) := by
  refine .bind (checkReady_hasEffect p) (fun _ => (?_ : HasEffect .storesFloat _)) (by decide)
  exact .andThen (memoryOperand_hasEffect p hm) fun place => (ha place.1 place.2).toExec

theorem loadControl_hasEffect (p : Prefixes) {mb : ModeByte} (hm : mb.isRegister = false) :
    HasEffect .floatInstruction (loadControl p mb : Exec H Unit) := by
  refine .bind (checkReady_hasEffect p) (fun _ => (?_ : HasEffect .loadsFloat _)) (by decide)
  refine .andThen (memoryOperand_hasEffect p hm) fun place => ?_
  exact .bind (load_observes .word place.1 place.2).hasEffect (fun _ => updateFpu_hasEffect _)
    (by decide)

/-- The control and the status word are stored without a look at pending exceptions. -/
theorem storeWord_hasEffect (p : Prefixes) {mb : ModeByte} (hm : mb.isRegister = false)
    (word : Fpu → Word) : HasEffect .floatInstruction (storeWord p mb word : Exec H Unit) := by
  refine .andThen (checkAvailable_hasEffect p) fun _ => ?_
  refine .andThen (memoryOperand_hasEffect p hm) fun (seg, offset) => ?_
  exact .skip (.view _) fun value => (store_hasEffect .word seg offset _).weaken (by decide)

/-- A layout that is not there is a fault, and no refusal: the operand has been fetched by then. -/
theorem checkLayout_hasEffect (p : Prefixes) (feature : Feature) :
    HasEffect .reads (checkLayout p feature : Exec H Unit) :=
  .skip (.view _) fun _ => .ite (.throwLoud rfl) (.pure _)

/-- The unit is reset after its image is stored, and not when the store faults. -/
theorem saveState_hasEffect (p : Prefixes) {mb : ModeByte} (hm : mb.isRegister = false) :
    HasEffect .floatInstruction (saveState p mb : Exec H Unit) := by
  refine .andThen (checkAvailable_hasEffect p) fun _ => ?_
  refine .andThen (memoryOperand_hasEffect p hm) fun (seg, offset) => ?_
  refine .andThen (checkLayout_hasEffect p _) fun _ => .skip (.view _) fun image => ?_
  exact .bind (storeBytes_hasEffect seg offset image) (fun _ => updateFpu_hasEffect _) (by decide)

/-- The whole image is read before any of it is taken. -/
theorem restoreState_hasEffect (p : Prefixes) {mb : ModeByte} (hm : mb.isRegister = false) :
    HasEffect .floatInstruction (restoreState p mb : Exec H Unit) := by
  refine .bind (checkReady_hasEffect p) (fun _ => (?_ : HasEffect .loadsFloat _)) (by decide)
  refine .andThen (memoryOperand_hasEffect p hm) fun place => ?_
  refine .andThen (checkLayout_hasEffect p _) fun _ => ?_
  exact .bind (loadBytes_observes place.1 place.2 _).hasEffect (fun _ => updateFpu_hasEffect _)
    (by decide)

/-- The one instruction of the unit that writes a register of the processor. -/
theorem statusToAccumulator_hasEffect (p : Prefixes) :
    HasEffect .floatInstruction (statusToAccumulator p : Exec H Unit) := by
  have hu : HasEffect (.changes [.registers])
      (update fun s => s.setReg .word Reg.eax (s.fpu.statusWord.setWidth 32) : Exec H Unit) :=
    .update fun _ m => setReg_agree m .word Reg.eax _
  exact .bind (checkAvailable_hasEffect p) (fun _ => hu) (by decide)

/-- A change of the unit when it is available. -/
theorem availableUpdate_hasEffect (p : Prefixes) (f : Fpu → Fpu) :
    HasEffect .floatInstruction (do checkAvailable p; updateFpu f : Exec H Unit) :=
  .bind (checkAvailable_hasEffect p) (fun _ => updateFpu_hasEffect f) (by decide)

open FloatExec in
/-- Every instruction of the unit has this effect, if its mode byte fits it. -/
theorem runFloat_hasEffect (p : Prefixes) (mb : ModeByte) (instruction : FloatInstruction)
    (hm : instruction.hasMemoryOperand = true → mb.isRegister = false) :
    HasEffect .floatInstruction (runFloat p mb instruction : Exec H Unit) := by
  cases instruction with
  | arithMemory op format =>
    exact withNumber_hasEffect p (hm rfl) format fun loaded => arithLoaded_hasEffect p op loaded
  | arithTop op i => exact whenReady_hasEffect p (arithTop_hasEffect p op i)
  | arithInto op i pops => exact whenReady_hasEffect p (arithInto_hasEffect p op i pops)
  | compareMemory format pops =>
    exact withNumber_hasEffect p (hm rfl) format fun loaded => compareLoaded_hasEffect p loaded pops
  | compare i pops => exact whenReady_hasEffect p (compare_hasEffect p i pops)
  | test => exact whenReady_hasEffect p (test_hasEffect p)
  | examine => exact whenReady_hasEffect p examine_hasEffect
  | neg => exact whenReady_hasEffect p (mapTop_hasEffect p _)
  | abs => exact whenReady_hasEffect p (mapTop_hasEffect p _)
  | sqrt => exact whenReady_hasEffect p (sqrt_hasEffect p)
  | roundToIntegral => exact whenReady_hasEffect p (roundToIntegral_hasEffect p)
  | scale => exact whenReady_hasEffect p (scale_hasEffect p)
  | remainder => exact whenReady_hasEffect p (remainder_hasEffect p)
  | powerLessOne => exact whenReady_hasEffect p (powerLessOne_hasEffect p)
  | trig f => exact whenReady_hasEffect p (trig_hasEffect p f)
  | timesLogarithm => exact whenReady_hasEffect p (combine_hasEffect p _)
  | angle => exact whenReady_hasEffect p (combine_hasEffect p _)
  | nothing => exact (checkReady_hasEffect p).weaken (by decide)
  | load format =>
    exact withNumber_hasEffect p (hm rfl) format fun loaded => load_hasEffect p format loaded
  | loadRegister i => exact whenReady_hasEffect p (loadRegister_hasEffect p i)
  | loadConstant c => exact whenReady_hasEffect p (loadConstant_hasEffect p c)
  | storeReal format pops =>
    exact withPlace_hasEffect p (hm rfl) fun seg offset => storeReal_hasEffect p seg offset format pops
  | storeInt format pops =>
    exact withPlace_hasEffect p (hm rfl) fun seg offset => storeInt_hasEffect p seg offset format pops
  | storeDecimal =>
    exact withPlace_hasEffect p (hm rfl) fun seg offset => storeDecimal_hasEffect p seg offset
  | storeRegister i pops => exact whenReady_hasEffect p (storeRegister_hasEffect p i pops)
  | exchange i => exact whenReady_hasEffect p (exchange_hasEffect p i)
  | free i => exact whenReady_hasEffect p (update_hasEffect _)
  | loadControl => exact loadControl_hasEffect p (hm rfl)
  | storeControl => exact storeWord_hasEffect p (hm rfl) Fpu.control
  | storeStatus => exact storeWord_hasEffect p (hm rfl) Fpu.statusWord
  | statusToAccumulator => exact statusToAccumulator_hasEffect p
  | save => exact saveState_hasEffect p (hm rfl)
  | restore => exact restoreState_hasEffect p (hm rfl)
  | initState => exact availableUpdate_hasEffect p Fpu.reinitialize
  | clearExceptions => exact availableUpdate_hasEffect p _

/-- The pointers to the last instruction are part of the unit. -/
theorem remember_hasEffect (p : Prefixes) (number : BitVec 3) (mb : ModeByte) :
    HasEffect .floats (remember p number mb : Exec H Unit) :=
  .update fun _ m => fpu_agree m _

/-- An escape opcode: the mode byte decides what is run, and a byte that selects nothing is refused.
-/
theorem escape_hasEffect (p : Prefixes) (number : BitVec 3) :
    HasEffect .floatInstruction (escape p number : Exec H Unit) := by
  refine .andThen fetch8_hasEffect fun b => ?_
  extract_lets mb
  split
  next fault _ => exact HasEffect.throw.weaken (by decide)
  next instruction hd =>
    have hr : HasEffect .floats
        (if !instruction.isControl then remember p number mb else pure () : Exec H Unit) :=
      .ite (remember_hasEffect p number mb) (.pure _)
    exact .bind (runFloat_hasEffect p mb instruction (FloatInstruction.isRegister_of_decode hd))
      (fun _ => hr) (by decide)

/-- To wait changes nothing: it is refused, or it goes on. -/
theorem wait_hasEffect (p : Prefixes) : HasEffect .checks (wait p : Exec H Unit) := by
  refine .andThen (checkLock_hasEffect p) fun _ => .skip (.view _) fun cr0 => ?_
  have hw : HasEffect .checks (do
      if ← view (·.fpu.isPending) then throw (.unimplemented .pendingException) : Exec H Unit) :=
    .skip (.view _) fun _ => .ite .throw (.pure _)
  exact .when .throw (fun _ => hw) hw

end Exec

end Ia32
