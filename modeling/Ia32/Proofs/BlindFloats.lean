import Ia32.Instr.Fpu.Run
import Ia32.Proofs.BlindInstructions

/-!
# Blind floating-point instructions

The floating-point unit does the same on a machine without its record.  That
holds of a program that an exception may stop when it holds of the program that
says whether it was stopped (`FloatExec.Blind`).
-/

-- Blindness of a long program is a long answer.
set_option synthInstance.maxSize 512

namespace Ia32

variable {H : Type}

/-! ## Programs that an exception may stop -/

namespace FloatExec

variable {α β : Type}

/-- A program that an exception may stop does the same on a machine without its record. -/
class Blind (x : FloatExec H α) : Prop where
  run : Exec.Blind x.run

namespace Blind

instance pure (a : α) : Blind (Pure.pure a : FloatExec H α) := ⟨.pure (some a)⟩

instance failure : Blind (Alternative.failure : FloatExec H α) := ⟨.pure none⟩

theorem bind {x : FloatExec H β} {k : β → FloatExec H α} (hx : Blind x) (hk : ∀ b, Blind (k b)) :
    Blind (x >>= k) := by
  refine ⟨.bind hx.run fun b? => ?_⟩
  cases b? with
  | some b => exact (hk b).run
  | none => exact .pure none

instance bindBlind {x : FloatExec H β} {k : β → FloatExec H α} [hx : Blind x]
    [hk : ∀ b, Blind (k b)] : Blind (x >>= k) := .bind hx hk

instance lift {x : Exec H α} [hx : Exec.Blind x] : Blind (x : FloatExec H α) :=
  ⟨.bind hx fun _ => inferInstance⟩

instance ite {c : Prop} [Decidable c] {x y : FloatExec H α} [hx : Blind x] [hy : Blind y] :
    Blind (if c then x else y) := by
  split
  · exact hx
  · exact hy

/-- A program may read the machine, if it goes on as it would without the record. -/
theorem ofGet {k : Machine H → FloatExec H α} (hbare : ∀ m, k m.bare = k m)
    (hk : ∀ m, Blind (k m)) : Blind ((get : Exec H (Machine H)) >>= k : FloatExec H α) := by
  refine ⟨⟨fun m => ?_⟩⟩
  change (k m.bare).run m.bare = _
  rw [hbare]
  exact (hk m).run.run_bare m

instance view (f : Fpu → α) : Blind (FloatExec.view f : FloatExec H α) := by
  unfold FloatExec.view
  infer_instance

instance update (f : Fpu → Fpu) : Blind (FloatExec.update f : FloatExec H Unit) := by
  unfold FloatExec.update Exec.updateFpu
  infer_instance

instance toExec (action : FloatExec H Unit) [h : Blind action] : Exec.Blind action.toExec :=
  .bind h.run fun _ => inferInstance

end Blind

/-! ## Exceptions -/

section Exceptions

variable (p : Prefixes)

instance record_blind (bits : Word) : Exec.Blind (record bits : Exec H Bool) := by
  unfold record
  infer_instance

instance raise_blind (bits : Word) : Blind (raise p bits : FloatExec H Unit) := by
  unfold raise
  infer_instance

instance raiseIfAmong_blind (exceptions bit : Word) :
    Blind (raiseIfAmong p exceptions bit : FloatExec H Unit) := by
  unfold raiseIfAmong
  infer_instance

instance raiseEach_blind (exceptions : Word) (bits : List Word) :
    Blind (raiseEach p exceptions bits : FloatExec H Unit) := by
  induction bits with
  | nil => exact .pure ()
  | cons bit bits ih =>
    unfold raiseEach
    dsimp only
    infer_instance

instance raiseAfter_blind (exceptions : Word) :
    Blind (raiseAfter p exceptions : FloatExec H Unit) := by
  unfold raiseAfter
  infer_instance

instance requireFull_blind (i : Nat) : Blind (requireFull p i : FloatExec H Unit) := by
  unfold requireFull
  infer_instance

instance requireRoom_blind : Blind (requireRoom p : FloatExec H Unit) := by
  unfold requireRoom
  infer_instance

instance popIf_blind (pops : Bool) : Blind (popIf pops : FloatExec H Unit) := by
  unfold popIf
  infer_instance

instance checkDenormal_blind (x : Extended) : Blind (checkDenormal p x : FloatExec H Unit) := by
  unfold checkDenormal
  infer_instance

instance checkOperand_blind (x : Extended) (denormal : Bool) :
    Blind (checkOperand p x denormal : FloatExec H Unit) := by
  unfold checkOperand
  infer_instance

end Exceptions

/-! ## Computing -/

section Computing

variable (p : Prefixes) (op : FloatOp) (i : Nat)

instance checkDivisor_blind (a b : Extended) :
    Blind (checkDivisor p op a b : FloatExec H Unit) := by
  unfold checkDivisor
  split
  · exact .ofGet (fun _ => rfl) fun _ => inferInstance
  · infer_instance

instance storeResult_blind (r : Rounded) : Blind (storeResult p i r : FloatExec H Unit) := by
  unfold storeResult
  infer_instance

instance arith_blind (a b : Extended) : Blind (arith p op i a b : FloatExec H Unit) := by
  unfold arith
  infer_instance

instance arithLoaded_blind (loaded : Loaded) :
    Blind (arithLoaded p op loaded : FloatExec H Unit) := by
  unfold arithLoaded
  dsimp only
  infer_instance

instance arithTop_blind : Blind (arithTop p op i : FloatExec H Unit) := by
  unfold arithTop
  infer_instance

instance arithInto_blind (pops : Bool) : Blind (arithInto p op i pops : FloatExec H Unit) := by
  unfold arithInto
  infer_instance

instance setComparison_blind (bits : Word) : Blind (setComparison bits : FloatExec H Unit) := by
  unfold setComparison
  infer_instance

instance compareLoaded_blind (loaded : Loaded) (pops : Bool) :
    Blind (compareLoaded p loaded pops : FloatExec H Unit) := by
  unfold compareLoaded
  infer_instance

instance compare_blind (pops : Nat) : Blind (compare p i pops : FloatExec H Unit) := by
  unfold compare
  infer_instance

instance test_blind : Blind (test p : FloatExec H Unit) := by
  unfold test
  infer_instance

instance examine_blind : Blind (examine : FloatExec H Unit) := by
  unfold examine
  infer_instance

instance mapTop_blind (f : Extended → Extended) : Blind (mapTop p f : FloatExec H Unit) := by
  unfold mapTop
  infer_instance

instance sqrt_blind : Blind (sqrt p : FloatExec H Unit) := by
  unfold sqrt
  infer_instance

instance roundToIntegral_blind : Blind (roundToIntegral p : FloatExec H Unit) := by
  unfold roundToIntegral
  dsimp only
  infer_instance

instance powerLessOne_blind : Blind (powerLessOne p : FloatExec H Unit) := by
  unfold powerLessOne
  infer_instance

instance storeTwice_blind (f : Trig) (x : Extended) :
    Blind (storeTwice f x : FloatExec H Unit) := by
  unfold storeTwice
  infer_instance

instance trigFinite_blind (f : Trig) (x : Extended) :
    Blind (trigFinite p f x : FloatExec H Unit) := by
  unfold trigFinite
  infer_instance

instance trig_blind (f : Trig) : Blind (trig p f : FloatExec H Unit) := by
  unfold trig
  dsimp only
  infer_instance

instance scale_blind : Blind (scale p : FloatExec H Unit) := by
  unfold scale
  infer_instance

instance remainder_blind : Blind (remainder p : FloatExec H Unit) := by
  unfold remainder
  dsimp only
  infer_instance

instance combine_blind (f : (y x : Extended) → Rounded) :
    Blind (combine p f : FloatExec H Unit) := by
  unfold combine
  infer_instance

end Computing

/-! ## Loads and stores -/

section Transfers

variable (p : Prefixes) (seg : Seg) (offset : Dword)

instance load_blind (format : NumberFormat) (loaded : Loaded) :
    Blind (load p format loaded : FloatExec H Unit) := by
  unfold load
  dsimp only
  infer_instance

instance loadRegister_blind (i : Nat) : Blind (loadRegister p i : FloatExec H Unit) := by
  unfold loadRegister
  infer_instance

instance loadConstant_blind (c : Constant) : Blind (loadConstant p c : FloatExec H Unit) := by
  unfold loadConstant
  infer_instance

instance storeRegister_blind (i : Nat) (pops : Bool) :
    Blind (storeRegister p i pops : FloatExec H Unit) := by
  unfold storeRegister
  infer_instance

instance exchange_blind (i : Nat) : Blind (exchange p i : FloatExec H Unit) := by
  unfold exchange
  infer_instance

instance raiseStore_blind (exceptions : Word) :
    Blind (raiseStore p exceptions : FloatExec H Unit) := by
  have hrest : ∀ range : Word, Blind (do
      let m : Machine H ← (get : Exec H (Machine H))
      if range ≠ 0 && m.config.storeRangeHidesInexact then
        update (·.setCondition Status.c1 false)
      else raiseAfter p (exceptions &&& Exception.precision) : FloatExec H Unit) := fun range =>
    .ofGet (fun _ => rfl) fun _ => inferInstance
  unfold raiseStore
  dsimp only
  infer_instance

instance roundToFormat_blind (format : IntFormat) (x : Extended) :
    Blind (roundToFormat p format x : FloatExec H Int) := by
  unfold roundToFormat
  refine .bind inferInstance fun mode => ?_
  split <;> infer_instance

instance roundToDecimal_blind (x : Extended) :
    Blind (roundToDecimal p x : FloatExec H (List Byte)) := by
  unfold roundToDecimal
  dsimp only
  have hdigits : ∀ n? : Option Int, Blind (do
      match n? with
      | some n =>
        if n.natAbs < Nat.pow 10 (2 * decimalBytes) then return packedDecimal x.sign n.natAbs
        else
          raise p Exception.invalid
          return indefiniteDecimal
      | none =>
        raise p Exception.invalid
        return indefiniteDecimal : FloatExec H (List Byte)) := fun _ => by
    split <;> infer_instance
  infer_instance

variable [Host H]

instance readNumber_blind (format : NumberFormat) :
    Exec.Blind (readNumber seg offset format : Exec H Loaded) := by
  unfold readNumber
  infer_instance

instance storeBytes_blind (bytes : List Byte) :
    Blind (storeBytes seg offset bytes : FloatExec H Unit) := by
  unfold storeBytes
  infer_instance

instance storeReal_blind (format : RealFormat) (pops : Bool) :
    Blind (storeReal p seg offset format pops : FloatExec H Unit) := by
  unfold storeReal
  infer_instance

instance storeInt_blind (format : IntFormat) (pops : Bool) :
    Blind (storeInt p seg offset format pops : FloatExec H Unit) := by
  unfold storeInt
  infer_instance

instance storeDecimal_blind : Blind (storeDecimal p seg offset : FloatExec H Unit) := by
  unfold storeDecimal
  infer_instance

end Transfers

end FloatExec

/-! ## Instructions -/

namespace Exec

variable (p : Prefixes) (m : ModeByte)

instance updateFpu_blind (f : Fpu → Fpu) : Blind (updateFpu f : Exec H Unit) := by
  unfold updateFpu
  infer_instance

instance checkAvailable_blind : Blind (checkAvailable p : Exec H Unit) := by
  unfold checkAvailable
  infer_instance

instance checkReady_blind : Blind (checkReady p : Exec H Unit) := by
  unfold checkReady
  dsimp only
  infer_instance

instance clearExceptions_blind : Blind (clearExceptions p : Exec H Unit) := by
  unfold clearExceptions
  infer_instance

instance initState_blind : Blind (initState p : Exec H Unit) := by
  unfold initState
  infer_instance

instance statusToAccumulator_blind : Blind (statusToAccumulator p : Exec H Unit) := by
  unfold statusToAccumulator
  infer_instance

instance wait_blind : Blind (wait p : Exec H Unit) := by
  unfold wait
  dsimp only
  infer_instance

instance checkLayout_blind (feature : Feature) :
    Blind (checkLayout p feature : Exec H Unit) := by
  unfold checkLayout
  infer_instance

instance whenReady_blind (action : FloatExec H Unit) [action.Blind] :
    Blind (whenReady p action) := by
  unfold whenReady
  infer_instance

instance remember_blind (escape : BitVec 3) : Blind (remember p escape m : Exec H Unit) := by
  unfold remember
  infer_instance

variable [Host H]

instance memoryOperand_blind : Blind (memoryOperand p m : Exec H (Seg × Dword)) := by
  unfold memoryOperand
  infer_instance

instance loadControl_blind : Blind (loadControl p m : Exec H Unit) := by
  unfold loadControl
  infer_instance

instance storeWord_blind (word : Fpu → Word) : Blind (storeWord p m word : Exec H Unit) := by
  unfold storeWord
  infer_instance

instance saveState_blind : Blind (saveState p m : Exec H Unit) := by
  unfold saveState
  infer_instance

instance restoreState_blind : Blind (restoreState p m : Exec H Unit) := by
  unfold restoreState
  infer_instance

instance withNumber_blind (format : NumberFormat)
    (action : FloatExec.Loaded → FloatExec H Unit) [∀ loaded, (action loaded).Blind] :
    Blind (withNumber p m format action) := by
  unfold withNumber
  infer_instance

instance withPlace_blind (action : Seg → Dword → FloatExec H Unit)
    [∀ seg offset, (action seg offset).Blind] : Blind (withPlace p m action) := by
  unfold withPlace
  infer_instance

instance runFloat_blind (instruction : FloatInstruction) :
    Blind (runFloat p m instruction : Exec H Unit) := by
  unfold runFloat
  cases instruction <;> infer_instance

instance escape_blind (number : BitVec 3) : Blind (escape p number : Exec H Unit) := by
  unfold escape
  refine .bind inferInstance fun b => ?_
  dsimp only
  split <;> infer_instance

end Exec

end Ia32
