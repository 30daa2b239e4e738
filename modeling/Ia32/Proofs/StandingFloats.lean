import Ia32.Proofs.FloatStarts
import Ia32.Proofs.StandingPrograms

/-!
# Floating-point programs that stand

A program that an exception may stop leaves the instruction pointer where it is, when
the program does that says whether it was stopped.  So an instruction of the unit that
has taken its operand from the code stays behind it, stopped or not.
-/

-- A long program has a long answer.
set_option synthInstance.maxSize 512

namespace Ia32

variable {H : Type} {α β : Type}

namespace FloatExec

/-- A program that an exception may stop leaves the instruction pointer where it is. -/
class Stands (x : FloatExec H α) : Prop where
  run : Exec.Stands x.run

namespace Stands

instance pure (a : α) : Stands (Pure.pure a : FloatExec H α) := ⟨.pure (some a)⟩

instance failure : Stands (Alternative.failure : FloatExec H α) := ⟨.pure none⟩

instance bind {x : FloatExec H β} {k : β → FloatExec H α} [hx : Stands x]
    [hk : ∀ b, Stands (k b)] : Stands (x >>= k) := by
  have hrest (b? : Option β) : Exec.Stands
      (match b? with
      | some b => (k b).run
      | none => Pure.pure none : Exec H (Option α)) := by
    cases b? with
    | some b => exact (hk b).run
    | none => exact .pure none
  exact ⟨@Exec.Stands.bind _ _ _ _ _ hx.run hrest⟩

instance lift {x : Exec H α} [Exec.Stands x] : Stands (x : FloatExec H α) :=
  ⟨(inferInstance : Exec.Stands (x >>= fun a => Pure.pure (some a)))⟩

instance ite {c : Prop} [Decidable c] {x y : FloatExec H α} [hx : Stands x] [hy : Stands y] :
    Stands (if c then x else y) := by
  split
  · exact hx
  · exact hy

instance view (f : Fpu → α) : Stands (FloatExec.view f : FloatExec H α) := by
  unfold FloatExec.view
  infer_instance

instance update (f : Fpu → Fpu) : Stands (FloatExec.update f : FloatExec H Unit) :=
  @lift _ _ _ (.ofUpdate fun _ => rfl)

instance toExec (action : FloatExec H Unit) [h : Stands action] : Exec.Stands action.toExec :=
  @Exec.Stands.bind _ _ _ _ _ h.run fun _ => inferInstance

end Stands

/-! ## Exceptions -/

section Exceptions

variable (p : Prefixes)

instance raise_stands (bits : Word) : Stands (raise p bits : FloatExec H Unit) := by
  have hrecord : Exec.Stands (record bits : Exec H Bool) := .ofUpdateWith fun _ => rfl
  unfold raise
  infer_instance

instance raiseIfAmong_stands (exceptions bit : Word) :
    Stands (raiseIfAmong p exceptions bit : FloatExec H Unit) := by
  unfold raiseIfAmong
  infer_instance

instance raiseEach_stands (exceptions : Word) (bits : List Word) :
    Stands (raiseEach p exceptions bits : FloatExec H Unit) := by
  induction bits with
  | nil => exact .pure ()
  | cons bit bits ih =>
    unfold raiseEach
    dsimp only
    infer_instance

instance raiseAfter_stands (exceptions : Word) :
    Stands (raiseAfter p exceptions : FloatExec H Unit) := by
  unfold raiseAfter
  infer_instance

instance requireFull_stands (i : Nat) : Stands (requireFull p i : FloatExec H Unit) := by
  unfold requireFull
  infer_instance

instance requireRoom_stands : Stands (requireRoom p : FloatExec H Unit) := by
  unfold requireRoom
  infer_instance

instance popIf_stands (pops : Bool) : Stands (popIf pops : FloatExec H Unit) := by
  unfold popIf
  infer_instance

instance checkDenormal_stands (x : Extended) : Stands (checkDenormal p x : FloatExec H Unit) := by
  unfold checkDenormal
  infer_instance

instance checkOperand_stands (x : Extended) (denormal : Bool) :
    Stands (checkOperand p x denormal : FloatExec H Unit) := by
  unfold checkOperand
  infer_instance

end Exceptions

/-! ## Computing -/

section Computing

variable (p : Prefixes) (op : FloatOp) (i : Nat)

instance storeResult_stands (r : Rounded) : Stands (storeResult p i r : FloatExec H Unit) := by
  unfold storeResult
  infer_instance

instance arith_stands (a b : Extended) : Stands (arith p op i a b : FloatExec H Unit) := by
  have hdivisor : Stands (checkDivisor p op a b : FloatExec H Unit) := by
    unfold checkDivisor
    split <;> infer_instance
  unfold arith
  infer_instance

instance setComparison_stands (bits : Word) :
    Stands (setComparison bits : FloatExec H Unit) := by
  unfold setComparison
  infer_instance

instance storeTwice_stands (f : Trig) (x : Extended) :
    Stands (storeTwice f x : FloatExec H Unit) := by
  unfold storeTwice
  infer_instance

instance trigFinite_stands (f : Trig) (x : Extended) :
    Stands (trigFinite p f x : FloatExec H Unit) := by
  unfold trigFinite
  infer_instance

end Computing

/-! ## Stores -/

section Stores

variable (p : Prefixes)

instance raiseStore_stands (exceptions : Word) :
    Stands (raiseStore p exceptions : FloatExec H Unit) := by
  unfold raiseStore
  dsimp only
  infer_instance

instance roundToFormat_stands (format : IntFormat) (x : Extended) :
    Stands (roundToFormat p format x : FloatExec H Int) := by
  unfold roundToFormat
  refine @Stands.bind _ _ _ _ _ inferInstance fun mode => ?_
  split <;> infer_instance

instance roundToDecimal_stands (x : Extended) :
    Stands (roundToDecimal p x : FloatExec H (List Byte)) := by
  have hdigits (n? : Option Int) : Stands (do
      match n? with
      | some n =>
        if n.natAbs < Nat.pow 10 (2 * decimalBytes) then return packedDecimal x.sign n.natAbs
        else
          raise p Exception.invalid
          return indefiniteDecimal
      | none =>
        raise p Exception.invalid
        return indefiniteDecimal : FloatExec H (List Byte)) := by
    split <;> infer_instance
  unfold roundToDecimal
  dsimp only
  infer_instance

instance storeBytes_stands [Host H] (seg : Seg) (offset : Dword) (bytes : List Byte) :
    Stands (storeBytes seg offset bytes : FloatExec H Unit) := by
  unfold storeBytes
  infer_instance

end Stores

end FloatExec

/-! ## Control -/

namespace Exec

instance updateFpu_stands (f : Fpu → Fpu) : Stands (updateFpu f : Exec H Unit) :=
  .ofUpdate fun _ => rfl

instance wait_stands (p : Prefixes) : Stands (wait p : Exec H Unit) := by
  unfold wait
  dsimp only
  infer_instance

instance checkLayout_stands (p : Prefixes) (feature : Feature) :
    Stands (checkLayout p feature : Exec H Unit) := by
  unfold checkLayout
  infer_instance

end Exec

/-! ## Instructions -/

variable [Host H]

/-- What an instruction does on the register stack leaves the instruction pointer where it is. -/
theorem FloatInstruction.program_stands (p : Prefixes) (i : FloatInstruction)
    (operand : FloatOperand) : FloatExec.Stands (i.program p operand : FloatExec H Unit) := by
  unfold program
  split
  next => unfold FloatExec.arithLoaded; dsimp only; infer_instance
  next => unfold FloatExec.arithTop; infer_instance
  next => unfold FloatExec.arithInto; infer_instance
  next => unfold FloatExec.compareLoaded; infer_instance
  next => unfold FloatExec.compare; infer_instance
  next => unfold FloatExec.test; infer_instance
  next => unfold FloatExec.examine; infer_instance
  next => unfold FloatExec.mapTop; infer_instance
  next => unfold FloatExec.mapTop; infer_instance
  next => unfold FloatExec.sqrt; infer_instance
  next => unfold FloatExec.roundToIntegral; dsimp only; infer_instance
  next => unfold FloatExec.scale; infer_instance
  next => unfold FloatExec.remainder; dsimp only; infer_instance
  next => unfold FloatExec.powerLessOne; infer_instance
  next => unfold FloatExec.trig; dsimp only; infer_instance
  next => unfold FloatExec.combine; infer_instance
  next => unfold FloatExec.combine; infer_instance
  next => unfold FloatExec.load; dsimp only; infer_instance
  next => unfold FloatExec.loadRegister; infer_instance
  next => unfold FloatExec.loadConstant; infer_instance
  next => unfold FloatExec.storeReal; infer_instance
  next => unfold FloatExec.storeInt; infer_instance
  next => unfold FloatExec.storeDecimal; infer_instance
  next => unfold FloatExec.storeRegister; infer_instance
  next => unfold FloatExec.exchange; infer_instance
  next => infer_instance
  next => infer_instance

end Ia32
