import Ia32.Instr.Far
import Ia32.Proofs.TransferEffects

/-!
# What a far transfer looks at

The privilege level, the descriptors, the stacks in the task state segment and
the frame on the stack.  They are the values of the programs that look.  None of
them depends on the instruction pointer or on the log, so that they are the same
before and after the instruction is taken from the code.
-/

namespace Ia32

open Host Exec

variable {H : Type}

/-! ## Views -/

/-- What a far transfer looks at. -/
structure FarView where
  /-- The privilege level. -/
  level : Byte
  /-- The descriptor that a selector names. -/
  descriptor? : Word → Option Descriptor
  /-- The stack of a level in the task state segment. -/
  taskStack? : Byte → Option StackPointer
  /-- The values of a width from the top of the stack on. -/
  frameValue? : Width → Nat → Option Dword
  /-- The selector of the outer stack, in the frame of a return that releases some bytes. -/
  outerStack? : Width → Word → Option Word

/-- What a far transfer on a machine looks at. -/
def Machine.farView [Host H] (m : Machine H) : FarView where
  level := m.cpl
  descriptor? selector := value? (readDescriptor selector) m
  taskStack? level := value? (taskStack level) m
  frameValue? w k := value? (frameValue w k) m
  outerStack? w released :=
    (value? (load w .ss (m.wrapStack (m.sp + BitVec.ofNat 32 (3 * w.bytes + released.toNat)))) m).map
      (·.setWidth 16)

@[simp] theorem Machine.farView_level [Host H] (m : Machine H) : m.farView.level = m.cpl := rfl

/-! ## Steady programs -/

namespace Exec

variable {α β : Type}

/-- The value of a program depends neither on the instruction pointer nor on the log. -/
def Steady (x : Exec H α) : Prop :=
  ∀ (m : Machine H) (eip : Dword) (log : Log),
    value? x { m with eip := eip, log := log } = value? x m

namespace Steady

theorem pure (a : α) : Steady (Pure.pure a : Exec H α) := fun _ _ _ => rfl

theorem throw (f : Fault) : Steady (MonadExcept.throw f : Exec H α) := fun _ _ _ => rfl

/-- What does not depend on the instruction pointer may be read. -/
theorem view {f : Processor → α} (hf : ∀ s eip, f { s with eip := eip } = f s) :
    Steady (Exec.view f : Exec H α) := fun m eip _ => congrArg some (hf m.toProcessor eip)

/-- A program that logs something and faults has no value on any machine. -/
theorem noteThrow {category : Log.Category} {level : Log.Level} {message : Machine H → String}
    {f : Fault} {k : β → Exec H α} :
    Steady (do note category level message; k (← MonadExcept.throw f)) := fun _ _ _ => rfl

theorem ite {c : Prop} [Decidable c] {x y : Exec H α} (hx : Steady x) (hy : Steady y) :
    Steady (if c then x else y) := by
  split
  · exact hx
  · exact hy

variable [Host H]

/-- A sequence is steady if both parts are, as the first one leaves the machine as it is. -/
theorem bind {x : Exec H β} {k : β → Exec H α} (hx : Observes x) (hs : Steady x)
    (hk : ∀ b, Steady (k b)) : Steady (x >>= k) := by
  intro m eip log
  rw [hx.value_bind, hx.value_bind, hs]
  cases value? x m with
  | none => rfl
  | some b => exact hk b m eip log

end Steady

variable [Host H]

/-- An access is checked against a segment, wherever the next instruction is. -/
theorem checkAccess_steady (cache : SegmentCache) (onStack : Bool) (offset : Dword) (len : Nat)
    (access : Access) : Steady (checkAccess cache onStack offset len access : Exec H Dword) := by
  have hbounds : Steady (do
      if !cache.contains offset len then
        note .memory .debug fun _ => boundsMessage cache offset len
        throw (if onStack then .stackFault 0 else .generalProtection 0)
      return cache.base + offset : Exec H Dword) := .ite .noteThrow (.pure _)
  refine .bind (.view _) (.view fun _ _ => rfl) fun uses => .ite ?_ hbounds
  refine .ite (.bind (.throw rfl) (.throw _) fun _ => ?_) ?_ <;>
  exact .ite .noteThrow hbounds

theorem linearOf_steady (seg : Seg) (offset : Dword) (len : Nat) (access : Access) :
    Steady (linearOf seg offset len access : Exec H Dword) :=
  .bind (.view _) (.view fun _ _ => rfl) fun cache => checkAccess_steady cache _ offset len access

/-- Memory is read from the host. -/
theorem readLinear_steady (linear : Dword) (n : Nat) :
    Steady (readLinear linear n : Exec H (List Byte)) := by
  intro m eip log
  rw [value?_readLinear, value?_readLinear]

theorem readLinearValue_steady (linear : Dword) (n : Nat) :
    Steady (readLinearValue linear n : Exec H Nat) :=
  .bind (readLinear_observes linear n) (readLinear_steady linear n) fun _ => .pure _

/-- The segment registers decide about a load, and not the instruction pointer. -/
theorem load_steady (w : Width) (seg : Seg) (offset : Dword) :
    Steady (load w seg offset : Exec H Dword) := by
  have hbytes : Steady (loadBytes seg offset w.bytes : Exec H (List Byte)) :=
    .bind (linearOf_observes seg offset w.bytes .read) (linearOf_steady seg offset w.bytes .read)
      fun linear => readLinear_steady linear w.bytes
  exact .bind (loadBytes_observes seg offset w.bytes) hbytes fun _ => .pure _

/-- Descriptors are read from their tables. -/
theorem readDescriptor_steady (selector : Word) :
    Steady (readDescriptor selector : Exec H Descriptor) := by
  have hread : Steady (do
      let address ← view (entryAddress · selector)
      return .ofBytes (← readLinear address 8) : Exec H Descriptor) :=
    .bind (.view _) (.view fun _ _ => rfl) fun address =>
      .bind (readLinear_observes address 8) (readLinear_steady address 8) fun _ => .pure _
  refine .bind (.view _) (.view fun _ _ => rfl) fun present => ?_
  exact .ite (.bind (.throw rfl) (.throw _) fun _ => hread) hread

/-- The inner stack is read from the task state. -/
theorem taskStack_steady (level : Byte) : Steady (taskStack level : Exec H StackPointer) := by
  refine .bind (.view _) (.view fun _ _ => rfl) fun tr => ?_
  extract_lets offset read check
  have hr : ∀ u, Steady (read u) := fun _ => by
    refine .bind (readLinearValue_observes _ 4) (readLinearValue_steady _ 4) fun esp => ?_
    exact .bind (readLinearValue_observes _ 2) (readLinearValue_steady _ 2) fun ss => .pure _
  have hc : ∀ u, Steady (check u) := fun _ =>
    .ite (.bind (.throw rfl) (.throw _) hr) (hr ())
  exact .ite (.bind (.throw rfl) (.throw _) hc) (hc ())

/-- A value of a frame is read and not popped. -/
theorem frameValue_observes (w : Width) (k : Nat) : Observes (frameValue w k : Exec H Dword) :=
  .bind (.view _) fun place => load_observes w .ss place

theorem frameValue_steady (w : Width) (k : Nat) : Steady (frameValue w k : Exec H Dword) :=
  .bind (.view _) (.view fun _ _ => rfl) fun place => load_steady w .ss place

end Exec

/-- Neither the instruction pointer nor the log is looked at. -/
theorem Machine.farView_moved [Host H] (m : Machine H) (eip : Dword) (log : Log) :
    { m with eip := eip, log := log }.farView = m.farView := by
  simp only [farView, FarView.mk.injEq]
  refine ⟨rfl, funext fun selector => readDescriptor_steady selector m eip log,
    funext fun level => taskStack_steady level m eip log,
    funext fun w => funext fun k => frameValue_steady w k m eip log,
    funext fun w => funext fun released => ?_⟩
  exact congrArg (Option.map _) (load_steady w .ss _ m eip log)

end Ia32
