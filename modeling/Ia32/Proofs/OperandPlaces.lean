import Ia32.Instr.Fpu.Control

/-!
# Where an operand is

The place of an operand comes from the code stream, the general registers and the
address size.  The floating-point unit has no part in it.  A program that ignores
the unit does the same whatever the state of the unit is, and leaves it as it is
(`Exec.IgnoresUnit`).  Like blindness this is found by instances, one for each way
to put programs together.

A waiting instruction clears a condition of the unit before it takes its operand.
So the operand that it finds is the one that is found without this.
-/

namespace Ia32

variable {H : Type}

namespace Exec

variable {α β : Type}

/-- The end of a program, with another state of the unit. -/
def endWithUnit (f : Fpu) :
    EStateM.Result Fault (Machine H) α → EStateM.Result Fault (Machine H) α
  | .ok a m => .ok a { m with fpu := f }
  | .error fault m => .error fault { m with fpu := f }

/-- A program does the same whatever the state of the unit is, and leaves that as it is. -/
class IgnoresUnit (x : Exec H α) : Prop where
  run_unit : ∀ (m : Machine H) (f : Fpu), x { m with fpu := f } = endWithUnit f (x m)

namespace IgnoresUnit

/-! ## Rules -/

instance pure (a : α) : IgnoresUnit (Pure.pure a : Exec H α) := ⟨fun _ _ => rfl⟩

instance throw (fault : Fault) : IgnoresUnit (MonadExcept.throw fault : Exec H α) :=
  ⟨fun _ _ => rfl⟩

instance bind {x : Exec H β} {k : β → Exec H α} [hx : IgnoresUnit x] [hk : ∀ b, IgnoresUnit (k b)] :
    IgnoresUnit (x >>= k) := by
  constructor
  intro m f
  change EStateM.bind x k { m with fpu := f } = endWithUnit f (EStateM.bind x k m)
  unfold EStateM.bind
  rw [hx.run_unit m f]
  cases x m with
  | ok b m' => exact (hk b).run_unit m' f
  | error fault m' => rfl

instance ite {c : Prop} [Decidable c] {x y : Exec H α} [hx : IgnoresUnit x] [hy : IgnoresUnit y] :
    IgnoresUnit (if c then x else y) := by
  split
  · exact hx
  · exact hy

theorem view {g : Processor → α} (hg : ∀ s f, g { s with fpu := f } = g s) :
    IgnoresUnit (Exec.view g : Exec H α) := by
  constructor
  intro m f
  have hok (a : α) (h : a = g m.toProcessor) :
      (.ok a { m with fpu := f } : EStateM.Result Fault (Machine H) α) =
        .ok (g m.toProcessor) { m with fpu := f } := by rw [h]
  exact hok _ (hg m.toProcessor f)

instance viewReg (w : Width) (r : Reg) : IgnoresUnit (Exec.view (·.reg w r) : Exec H Dword) :=
  .view fun _ _ => rfl

end IgnoresUnit

variable [Host H]

/-! ## The code stream and operands -/

instance fetch8_ignoresUnit : IgnoresUnit (fetch8 : Exec H Byte) := by
  constructor
  intro m f
  have hread (linear : Dword) : IgnoresUnit (match Host.read m.host linear with
      | .ok b => do
        update fun s => { s with eip := s.eip + 1 }
        return b
      | .error fault => throw fault : Exec H Byte) := by
    split
    · have hnext : IgnoresUnit (update fun s => { s with eip := s.eip + 1 } : Exec H Unit) :=
        ⟨fun _ _ => rfl⟩
      infer_instance
    · infer_instance
  change (ite _ _ _ : Exec H Byte) { m with fpu := f } = endWithUnit f ((ite _ _ _ : Exec H Byte) m)
  split
  · rfl
  · exact (hread _).run_unit m f

instance fetchBytes_ignoresUnit (n : Nat) : IgnoresUnit (fetchBytes n : Exec H (List Byte)) := by
  induction n with
  | zero => exact .pure []
  | succ n ih =>
    unfold fetchBytes
    infer_instance

instance fetch_ignoresUnit (w : Width) : IgnoresUnit (fetch w : Exec H Dword) := by
  unfold fetch
  infer_instance

instance fetchSigned8_ignoresUnit : IgnoresUnit (fetchSigned8 : Exec H Dword) := by
  unfold fetchSigned8
  infer_instance

instance address16_ignoresUnit (mode : BitVec 2) (rm : BitVec 3) :
    IgnoresUnit (address16 mode rm : Exec H (Seg × Dword)) := by
  have hbase : IgnoresUnit (Exec.view (base16 · rm) : Exec H (Seg × Dword)) := .view fun _ _ => rfl
  unfold address16
  infer_instance

instance scaledBase_ignoresUnit (mode : BitVec 2) :
    IgnoresUnit (scaledBase mode : Exec H (Seg × Dword)) := by
  have hindex (r : Reg) (scale : Nat) :
      IgnoresUnit (Exec.view fun s => s.reg .dword r <<< scale : Exec H Dword) :=
    .view fun _ _ => rfl
  unfold scaledBase
  dsimp only
  infer_instance

instance address32_ignoresUnit (mode : BitVec 2) (rm : BitVec 3) :
    IgnoresUnit (address32 mode rm : Exec H (Seg × Dword)) := by
  unfold address32
  infer_instance

/-- Where an operand is does not depend on the unit. -/
instance memoryOperand_ignoresUnit (p : Prefixes) (mode : ModeByte) :
    IgnoresUnit (memoryOperand p mode : Exec H (Seg × Dword)) := by
  have hwidth : IgnoresUnit (Exec.view p.address32 : Exec H Bool) := .view fun _ _ => rfl
  have hplace (place : Operand) : IgnoresUnit (memoryPlace place : Exec H (Seg × Dword)) := by
    cases place <;> unfold memoryPlace <;> infer_instance
  have hoperand : IgnoresUnit (operand p mode : Exec H Operand) := by
    unfold operand
    infer_instance
  unfold memoryOperand
  infer_instance

end Exec

end Ia32
