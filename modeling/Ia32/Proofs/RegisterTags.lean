import Ia32.Proofs.FloatSteps

/-!
# Register tags

A register that is written is tagged anew.  So every instruction of the unit,
also one that is stopped or faults, leaves each register empty, tagged by what it
holds, or as it was (`Fpu.Retags`).  Only a saved state that is restored may bring
in tags that do not match.

The registers of a reset unit are empty.  From there on, over a run that restores
no state, every register that is not empty has the tag of what it holds
(`Machine.tagAt_of_runs`).
-/

namespace Ia32

open Host Exec

variable {H : Type}

/-! ## Tags of numbers -/

/-- The tag of a class of numbers. -/
def Tag.ofClass : FloatClass → Tag
  | .zero => .zero
  | .normal => .valid
  | .denormal | .infinity | .quietNan | .signalingNan | .unsupported => .special

/-- The tag that a store computes is that of the class which an examination reports. -/
theorem Tag.ofNumber_eq_ofClass (x : Extended) : ofNumber x = ofClass x.classify := by
  unfold ofNumber Extended.isSpecial Extended.isZero Extended.classify
  dsimp only
  split_ifs <;> simp_all [ofClass, show Extended.specialExponent ≠ 0#16 by decide]

/-! ## Changes of the registers -/

namespace Fpu

/-- A change of the unit leaves every register empty, tagged by what it holds, or as it was. -/
def Retags (f f' : Fpu) : Prop :=
  ∀ r : Fin 8, f'.tagAt r = .empty ∨ f'.tagAt r = .ofNumber (f'.regs.get r) ∨
    f'.tagAt r = f.tagAt r ∧ f'.regs.get r = f.regs.get r

variable {f f' f'' : Fpu}

theorem Retags.refl (f : Fpu) : f.Retags f := fun _ => .inr (.inr ⟨rfl, rfl⟩)

/-- What the second change leaves as it was is what the first change has left. -/
theorem Retags.trans (h : f.Retags f') (h' : f'.Retags f'') : f.Retags f'' := by
  intro r
  rcases h' r with hempty | hmatch | ⟨htag, hreg⟩
  · exact .inl hempty
  · exact .inr (.inl hmatch)
  · rw [htag, hreg]
    exact h r

/-- A change that leaves registers and tags alone. -/
theorem Retags.of_eq (hregs : f'.regs = f.regs) (htags : f'.tags = f.tags) : f.Retags f' := by
  intro r
  rw [tagAt, tagAt, hregs, htags]
  exact .inr (.inr ⟨rfl, rfl⟩)

/-- To free a register is to empty it. -/
theorem retags_setTag_empty (f : Fpu) (i : Nat) : f.Retags (f.setTag i .empty) := by
  intro r
  rw [setTag, tagAt_setTagAt]
  split
  · exact .inl rfl
  · exact .inr (.inr ⟨rfl, rfl⟩)

/-- The register that is written gets the tag of the number; no other one is touched. -/
theorem retags_store (f : Fpu) (i : Nat) (x : Extended) : f.Retags (f.store i x) := by
  intro r
  rw [store, retag, setTag, tagAt_setTagAt]
  split
  next heq =>
    subst heq
    exact .inr (.inl rfl)
  next hne =>
    have hkept : (f.store i x).regs.get r = f.regs.get r :=
      Vector.getElem_set_ne (f.physical i).isLt r.isLt fun h => hne (Fin.ext h.symm)
    exact .inr (.inr ⟨rfl, hkept⟩)

/-- A push moves the top and writes the new top register. -/
theorem retags_pushNumber (f : Fpu) (x : Extended) : f.Retags (f.pushNumber x) :=
  (Retags.of_eq rfl rfl : f.Retags f.push).trans (f.push.retags_store 0 x)

/-- A pop empties the register that was at the top. -/
theorem retags_pop (f : Fpu) : f.Retags f.pop :=
  (f.retags_setTag_empty 0).trans (.of_eq rfl rfl)

/-- So do two pops, after a comparison of two registers. -/
theorem retags_repeat_pop (f : Fpu) (n : Nat) : f.Retags (Nat.repeat pop n f) := by
  induction n with
  | zero => exact .refl f
  | succ n ih => exact ih.trans (retags_pop _)

/-- Exceptions are bits of the status word, and so are the quotient bits of a remainder. -/
theorem retags_raise (f : Fpu) (bits : Word) : f.Retags (f.raise bits).2 := by
  unfold raise
  dsimp only
  split <;> exact .of_eq rfl rfl

theorem retags_remainderConditions (r : PartialRemainder) (f : Fpu) :
    f.Retags (FloatExec.remainderConditions r f) := by
  unfold FloatExec.remainderConditions
  dsimp only
  split <;> exact .of_eq rfl rfl

/-- All registers are empty after the unit is initialized. -/
theorem retags_of_reinitialized (htags : f'.tags = initial.tags) : f.Retags f' := by
  have hempty : ∀ r : Fin 8, initial.tagAt r = .empty := by decide
  intro r
  left
  rw [tagAt, htags]
  exact hempty r

end Fpu

/-! ## Programs -/

/-- A program of the processor, however it ends, retags the registers it changes. -/
def Exec.Retags {α : Type} (x : Exec H α) : Prop :=
  ∀ m : Machine H, Ends x m (fun _ m' => m.fpu.Retags m'.fpu) (fun _ m' => m.fpu.Retags m'.fpu)

namespace Exec.Retags

variable {α β : Type}

/-- Two changes that retag make one. -/
theorem bind {x : Exec H β} {k : β → Exec H α} (hx : Retags x) (hk : ∀ b, Retags (k b)) :
    Retags (x >>= k) := by
  intro m
  rw [ends_bind]
  refine (hx m).mono (fun b m₁ h₁ => ?_) fun _ _ h => h
  exact (hk b m₁).mono (fun _ _ h => h₁.trans h) fun _ _ h => h₁.trans h

theorem pure (a : α) : Retags (Pure.pure a : Exec H α) := fun m => .refl m.fpu

theorem throw (f : Fault) : Retags (MonadExcept.throw f : Exec H α) := fun m => .refl m.fpu

theorem view (f : Processor → α) : Retags (Exec.view f : Exec H α) := fun m => .refl m.fpu

theorem ite {c : Prop} [Decidable c] {x y : Exec H α} (hx : Retags x) (hy : Retags y) :
    Retags (if c then x else y) := by
  split
  · exact hx
  · exact hy

/-- A program that updates the unit retags what the update retags. -/
theorem updateFpu {g : Fpu → Fpu} (hg : ∀ f : Fpu, f.Retags (g f)) :
    Retags (Exec.updateFpu g : Exec H Unit) :=
  fun m => hg m.fpu

/-- A program whose effect spares the unit. -/
theorem of_hasEffect [Host H] {e : Effect} {x : Exec H α} (hx : HasEffect e x)
    (he : e.SparesFloat) : Retags x := fun m =>
  (hx.fpu_eq he m).mono (fun _ _ h => h ▸ .refl m.fpu) fun _ _ h => h ▸ .refl m.fpu

end Exec.Retags

/-- A program, when it faults, has retagged the registers it changed. -/
def Exec.FaultsRetag {α : Type} (x : Exec H α) : Prop :=
  ∀ m : Machine H, Ends x m (fun _ _ => True) (fun _ m' => m.fpu.Retags m'.fpu)

/-- A program that may bring in any tags at its end must not fault after that. -/
theorem Exec.FaultsRetag.after {α β : Type} {x : Exec H β} {k : β → Exec H α} (hx : Retags x)
    (hk : ∀ b, FaultsRetag (k b)) : FaultsRetag (x >>= k) := by
  intro m
  rw [ends_bind]
  refine (hx m).mono (fun b m₁ h₁ => ?_) fun _ _ h => h
  exact (hk b m₁).mono (fun _ _ h => h) fun _ _ h => h₁.trans h

namespace FloatExec

variable {α β : Type}

/-- A program that may be stopped, however it ends, retags the registers it changes. -/
def Retags (x : FloatExec H α) : Prop := Exec.Retags x.run

namespace Retags

theorem bind {x : FloatExec H β} {k : β → FloatExec H α} (hx : Retags x)
    (hk : ∀ b, Retags (k b)) : Retags (x >>= k) := by
  refine Exec.Retags.bind hx fun b? => ?_
  cases b? with
  | none => exact .pure none
  | some b => exact hk b

theorem pure (a : α) : Retags (Pure.pure a : FloatExec H α) := Exec.Retags.pure (some a)

theorem failure : Retags (failure : FloatExec H α) := Exec.Retags.pure none

/-- A program of the processor retags the same registers among programs that may be stopped. -/
theorem lift {x : Exec H α} (hx : Exec.Retags x) : Retags (x : FloatExec H α) :=
  hx.bind fun a => .pure (some a)

theorem view (f : Fpu → α) : Retags (FloatExec.view f : FloatExec H α) := lift (.view _)

theorem get : Retags ((MonadState.get : Exec H (Machine H)) : FloatExec H (Machine H)) :=
  lift fun m => .refl m.fpu

theorem ite {c : Prop} [Decidable c] {x y : FloatExec H α} (hx : Retags x) (hy : Retags y) :
    Retags (if c then x else y) := by
  split
  · exact hx
  · exact hy

/-- A step that is taken under a condition, and what follows it in either case. -/
theorem when {c : Prop} [Decidable c] {x : FloatExec H β} {k : β → FloatExec H α}
    {y : FloatExec H α} (hx : Retags x) (hk : ∀ b, Retags (k b)) (hy : Retags y) :
    Retags (if c then x >>= k else y) :=
  ite (bind hx hk) hy

theorem update {g : Fpu → Fpu} (hg : ∀ f : Fpu, f.Retags (g f)) :
    Retags (FloatExec.update g : FloatExec H Unit) :=
  lift (.updateFpu hg)

end Retags

/-! ## Raising -/

/-- Whether an exception stops a program or not, it touches no register. -/
theorem raise_retags (p : Prefixes) (bits : Word) : Retags (raise p bits : FloatExec H Unit) := by
  refine .bind (.lift fun m => m.fpu.retags_raise bits) fun stops => ?_
  refine .ite (.bind (.lift fun m => .refl m.fpu) fun _ => .failure) (.pure _)

theorem raiseIfAmong_retags (p : Prefixes) (exceptions bit : Word) :
    Retags (raiseIfAmong p exceptions bit : FloatExec H Unit) :=
  .ite (.pure _) (raise_retags p bit)

/-- Condition bits are no part of the registers. -/
theorem setCondition_retags (bits : Word) (on : Bool) :
    Retags (update (·.setCondition bits on) : FloatExec H Unit) :=
  .update fun _ => .of_eq rfl rfl

/-- Nor does a list of exceptions touch a register, wherever in it the program stops. -/
theorem raiseEach_retags (p : Prefixes) (exceptions : Word) (bits : List Word) :
    Retags (raiseEach p exceptions bits : FloatExec H Unit) := by
  induction bits with
  | nil => exact .pure _
  | cons bit bits ih =>
    unfold raiseEach
    extract_lets rest raised
    have hr : ∀ u, Retags (raised u) := fun _ => .bind (raise_retags p bit) fun _ => ih
    exact .ite (.when (setCondition_retags _ false) hr (hr ())) ih

theorem raiseAfter_retags (p : Prefixes) (exceptions : Word) :
    Retags (raiseAfter p exceptions : FloatExec H Unit) :=
  raiseEach_retags p exceptions _

/-- An empty register is only reported.  What stands in it is written by what follows, if anything.
-/
theorem requireFull_retags (p : Prefixes) (i : Nat) :
    Retags (requireFull p i : FloatExec H Unit) :=
  .bind (.view _) fun _ =>
    .ite (.bind (setCondition_retags _ _) fun _ => raise_retags p _) (.pure _)

theorem requireRoom_retags (p : Prefixes) : Retags (requireRoom p : FloatExec H Unit) :=
  .bind (.view _) fun _ =>
    .ite (.bind (setCondition_retags _ _) fun _ => raise_retags p _) (.pure _)

/-- A conditional pop empties a register or does nothing. -/
theorem popIf_retags (pops : Bool) : Retags (popIf pops : FloatExec H Unit) :=
  .ite (.update Fpu.retags_pop) (.pure _)

theorem checkDenormal_retags (p : Prefixes) (x : Extended) :
    Retags (checkDenormal p x : FloatExec H Unit) :=
  .ite (raise_retags p _) (.pure _)

theorem checkOperand_retags (p : Prefixes) (x : Extended) (denormal : Bool) :
    Retags (checkOperand p x denormal : FloatExec H Unit) :=
  .ite (raise_retags p _) (.ite (raise_retags p _) (.pure _))

/-! ## Arithmetic -/

theorem checkDivisor_retags (p : Prefixes) (op : FloatOp) (a b : Extended) :
    Retags (checkDivisor p op a b : FloatExec H Unit) := by
  unfold checkDivisor
  split
  · exact .bind .get fun m => .ite (raise_retags p _) (.pure _)
  · exact .pure _

/-- To write a register from a program. -/
theorem store_retags (i : Nat) (x : Extended) :
    Retags (update (·.store i x) : FloatExec H Unit) :=
  .update fun f => f.retags_store i x

/-- To push a number from a program. -/
theorem pushNumber_retags (x : Extended) : Retags (update (·.pushNumber x) : FloatExec H Unit) :=
  .update fun f => f.retags_pushNumber x

/-- The result is tagged when it is written, before its exceptions can stop the program. -/
theorem storeResult_retags (p : Prefixes) (i : Nat) (r : Rounded) :
    Retags (storeResult p i r : FloatExec H Unit) :=
  .bind (store_retags i r.value) fun _ => raiseAfter_retags p r.exceptions

/-- An operation writes one register. -/
theorem arith_retags (p : Prefixes) (op : FloatOp) (i : Nat) (a b : Extended) :
    Retags (arith p op i a b : FloatExec H Unit) :=
  .bind (checkDivisor_retags p op a b) fun _ => .bind (.view _) fun _ => storeResult_retags p i _

theorem arithLoaded_retags (p : Prefixes) (op : FloatOp) (loaded : Loaded) :
    Retags (arithLoaded p op loaded : FloatExec H Unit) := by
  have ha : Retags (do arith p op 0 (← view (·.value 0)) loaded.value : FloatExec H Unit) :=
    .bind (.view _) fun _ => arith_retags p op 0 _ _
  exact .bind (requireFull_retags p 0) fun _ => .when (raise_retags p _) (fun _ => ha) ha

theorem arithTop_retags (p : Prefixes) (op : FloatOp) (i : Nat) :
    Retags (arithTop p op i : FloatExec H Unit) := by
  refine .bind (requireFull_retags p 0) fun _ => .bind (requireFull_retags p i) fun _ => ?_
  exact .bind (.view _) fun _ => .bind (.view _) fun _ => arith_retags p op 0 _ _

/-- An operation that pops tags its result and empties the top register, which may be the same one.
-/
theorem arithInto_retags (p : Prefixes) (op : FloatOp) (i : Nat) (pops : Bool) :
    Retags (arithInto p op i pops : FloatExec H Unit) := by
  refine .bind (requireFull_retags p 0) fun _ => .bind (requireFull_retags p i) fun _ => ?_
  refine .bind (.view _) fun _ => .bind (.view _) fun _ => ?_
  exact .bind (arith_retags p op i _ _) fun _ => popIf_retags pops

/-! ## Comparisons -/

theorem setComparison_retags (bits : Word) : Retags (setComparison bits : FloatExec H Unit) :=
  .update fun _ => .of_eq rfl rfl

theorem compareLoaded_retags (p : Prefixes) (loaded : Loaded) (pops : Bool) :
    Retags (compareLoaded p loaded pops : FloatExec H Unit) := by
  refine .bind (setComparison_retags _) fun _ => .bind (requireFull_retags p 0) fun _ => ?_
  refine .bind (.view _) fun _ => .bind (checkOperand_retags p _ _) fun _ => ?_
  refine .bind (checkOperand_retags p _ _) fun _ => .bind (setComparison_retags _) fun _ => ?_
  exact popIf_retags pops

/-- A comparison empties the registers that it pops. -/
theorem compare_retags (p : Prefixes) (i pops : Nat) :
    Retags (compare p i pops : FloatExec H Unit) := by
  refine .bind (requireFull_retags p 0) fun _ => .bind (requireFull_retags p i) fun _ => ?_
  refine .bind (setComparison_retags _) fun _ => ?_
  refine .bind (.view _) fun _ => .bind (.view _) fun _ => ?_
  refine .bind (checkOperand_retags p _ _) fun _ => .bind (checkOperand_retags p _ _) fun _ => ?_
  exact .bind (setComparison_retags _) fun _ => .update fun f => f.retags_repeat_pop pops

theorem test_retags (p : Prefixes) : Retags (test p : FloatExec H Unit) := by
  refine .bind (setComparison_retags _) fun _ => .bind (requireFull_retags p 0) fun _ => ?_
  refine .bind (.view _) fun _ => .bind (checkOperand_retags p _ _) fun _ => ?_
  exact setComparison_retags _

theorem examine_retags : Retags (examine : FloatExec H Unit) :=
  .bind (.view _) fun _ => .bind (setCondition_retags _ _) fun _ => .bind (.view _) fun _ =>
    .ite (setComparison_retags _) (setComparison_retags _)

/-! ## One register -/

/-- Also a change of sign tags the register anew. -/
theorem mapTop_retags (p : Prefixes) (f : Extended → Extended) :
    Retags (mapTop p f : FloatExec H Unit) :=
  .bind (requireFull_retags p 0) fun _ => .bind (.view _) fun _ => store_retags 0 _

theorem sqrt_retags (p : Prefixes) : Retags (sqrt p : FloatExec H Unit) := by
  refine .bind (requireFull_retags p 0) fun _ => .bind (.view _) fun _ => ?_
  exact .bind (checkDenormal_retags p _) fun _ => .bind (.view _) fun _ => storeResult_retags p 0 _

theorem roundToIntegral_retags (p : Prefixes) :
    Retags (roundToIntegral p : FloatExec H Unit) := by
  refine .bind (requireFull_retags p 0) fun _ => .bind (.view _) fun x => .ite ?_ ?_
  · exact .when (raise_retags p _) (fun _ => store_retags 0 _) (store_retags 0 _)
  · refine .bind (checkDenormal_retags p x) fun _ => .bind (.view _) fun _ => ?_
    exact storeResult_retags p 0 _

theorem powerLessOne_retags (p : Prefixes) : Retags (powerLessOne p : FloatExec H Unit) := by
  refine .bind (requireFull_retags p 0) fun _ => .bind (.view _) fun _ => ?_
  exact .bind (checkOperand_retags p _ _) fun _ => storeResult_retags p 0 _

/-! ## Functions of an angle -/

theorem pushTangent_retags (f : Trig) (x : Extended) :
    Retags (if f = .tan then update (·.pushNumber x) else pure () : FloatExec H Unit) :=
  .ite (pushNumber_retags x) (.pure _)

/-- The result and the number pushed after it are both tagged. -/
theorem storeTwice_retags (f : Trig) (x : Extended) :
    Retags (storeTwice f x : FloatExec H Unit) :=
  .bind (store_retags 0 x) fun _ => pushTangent_retags f x

theorem trigFinite_retags (p : Prefixes) (f : Trig) (x : Extended) :
    Retags (trigFinite p f x : FloatExec H Unit) := by
  refine .bind (setCondition_retags _ _) fun _ => .bind (checkDenormal_retags p x) fun _ => ?_
  exact .bind (storeResult_retags p 0 _) fun _ => pushTangent_retags f .one

/-- An angle out of range leaves its register, and the tag, as they were. -/
theorem trig_retags (p : Prefixes) (f : Trig) : Retags (trig p f : FloatExec H Unit) := by
  refine .bind (requireFull_retags p 0) fun _ => ?_
  extract_lets classes
  have hclasses : ∀ u, Retags (classes u) := by
    refine fun _ => .bind (.view _) fun x => .ite ?_ (.ite ?_ (.ite ?_ ?_))
    · exact .when (raise_retags p _) (fun _ => storeTwice_retags f _) (storeTwice_retags f _)
    · refine .bind (raise_retags p _) fun _ => .bind (setCondition_retags _ _) fun _ => ?_
      exact storeTwice_retags f _
    · exact setCondition_retags _ _
    · exact trigFinite_retags p f x
  exact .when (requireRoom_retags p) hclasses (hclasses ())

/-! ## Two registers -/

theorem scale_retags (p : Prefixes) : Retags (scale p : FloatExec H Unit) := by
  refine .bind (requireFull_retags p 0) fun _ => .bind (requireFull_retags p 1) fun _ => ?_
  refine .bind (.view _) fun _ => .bind (.view _) fun _ => .bind (.view _) fun _ => ?_
  exact storeResult_retags p 0 _

/-- The remainder is tagged when it is written; the bits of the quotient come after it. -/
theorem remainder_retags (p : Prefixes) : Retags (remainder p : FloatExec H Unit) := by
  refine .bind (requireFull_retags p 0) fun _ => .bind (requireFull_retags p 1) fun _ => ?_
  refine .bind (.view _) fun _ => .bind (.view _) fun _ => ?_
  refine .bind (checkDenormal_retags p _) fun _ => .bind (checkDenormal_retags p _) fun _ => ?_
  refine .bind (raiseIfAmong_retags p _ _) fun _ => ?_
  refine .bind (.update fun f => ?_) fun _ => raiseAfter_retags p _
  exact (f.retags_store 0 _).trans (Fpu.retags_remainderConditions _ _)

/-- The second register is tagged by the result, and the top register is emptied. -/
theorem combine_retags (p : Prefixes) (f : (y x : Extended) → Rounded) :
    Retags (combine p f : FloatExec H Unit) := by
  refine .bind (requireFull_retags p 0) fun _ => .bind (requireFull_retags p 1) fun _ => ?_
  refine .bind (.view _) fun _ => .bind (.view _) fun _ => ?_
  refine .bind (raiseIfAmong_retags p _ _) fun _ => .bind (raiseIfAmong_retags p _ _) fun _ => ?_
  exact .bind (storeResult_retags p 1 _) fun _ => .update Fpu.retags_pop

/-! ## Loads and registers -/

/-- A number that is loaded is pushed, in its quiet form if it signals. -/
theorem load_retags (p : Prefixes) (format : NumberFormat) (loaded : Loaded) :
    Retags (load p format loaded : FloatExec H Unit) := by
  refine .bind (requireRoom_retags p) fun _ => .ite ?_ ?_
  · exact .bind (raise_retags p _) fun _ => pushNumber_retags _
  · exact .when (raise_retags p _) (fun _ => pushNumber_retags _) (pushNumber_retags _)

/-- A copy is tagged by what it holds and not by the tag of its source. -/
theorem loadRegister_retags (p : Prefixes) (i : Nat) :
    Retags (loadRegister p i : FloatExec H Unit) :=
  .bind (requireFull_retags p i) fun _ => .bind (.view _) fun _ =>
    .bind (requireRoom_retags p) fun _ => pushNumber_retags _

theorem loadConstant_retags (p : Prefixes) (c : Constant) :
    Retags (loadConstant p c : FloatExec H Unit) :=
  .bind (requireRoom_retags p) fun _ => pushNumber_retags _

/-- The same for a store into a register. -/
theorem storeRegister_retags (p : Prefixes) (i : Nat) (pops : Bool) :
    Retags (storeRegister p i pops : FloatExec H Unit) :=
  .bind (requireFull_retags p 0) fun _ => .bind (.view _) fun _ =>
    .bind (store_retags i _) fun _ => popIf_retags pops

/-- Both registers are tagged anew, also when they are one. -/
theorem exchange_retags (p : Prefixes) (i : Nat) : Retags (exchange p i : FloatExec H Unit) := by
  refine .bind (requireFull_retags p 0) fun _ => .bind (requireFull_retags p i) fun _ => ?_
  refine .bind (.view _) fun a => .bind (.view _) fun b => .update fun f => ?_
  exact (f.retags_store 0 b).trans (Fpu.retags_store _ i a)

/-! ## Stores -/

/-- A store to memory touches no register but by its pop. -/
theorem raiseStore_retags (p : Prefixes) (exceptions : Word) :
    Retags (raiseStore p exceptions : FloatExec H Unit) := by
  refine .bind (raiseIfAmong_retags p _ _) fun _ => .bind (raiseAfter_retags p _) fun _ => ?_
  exact .bind .get fun m => .ite (setCondition_retags _ _) (raiseAfter_retags p _)

theorem roundToFormat_retags (p : Prefixes) (format : IntFormat) (x : Extended) :
    Retags (roundToFormat p format x : FloatExec H Int) := by
  have hi : Retags (do
      raise p Exception.invalid
      return format.least : FloatExec H Int) :=
    .bind (raise_retags p _) fun _ => .pure _
  refine .bind (.view _) fun _ => ?_
  split
  · exact .ite (.when (raiseAfter_retags p _) (fun _ => .pure _) (.pure _)) hi
  · exact hi

theorem roundToDecimal_retags (p : Prefixes) (x : Extended) :
    Retags (roundToDecimal p x : FloatExec H (List Byte)) := by
  have hi : Retags (do
      raise p Exception.invalid
      return indefiniteDecimal : FloatExec H (List Byte)) :=
    .bind (raise_retags p _) fun _ => .pure _
  refine .ite hi (.bind (.view _) fun mode => ?_)
  obtain ⟨_ | n, inexact⟩ := x.toInt? mode
  · exact .when (raiseAfter_retags p _) (fun _ => hi) hi
  · exact .when (raiseAfter_retags p _) (fun _ => .ite (.pure _) hi) (.ite (.pure _) hi)

variable [Host H]

/-- Memory is not part of the unit. -/
theorem storeBytes_retags (seg : Seg) (offset : Dword) (bytes : List Byte) :
    Retags (storeBytes seg offset bytes : FloatExec H Unit) :=
  .lift (.of_hasEffect (Exec.storeBytes_hasEffect seg offset bytes) (by decide))

/-- The top register is emptied if the number is popped. -/
theorem storeReal_retags (p : Prefixes) (seg : Seg) (offset : Dword) (format : RealFormat)
    (pops : Bool) : Retags (storeReal p seg offset format pops : FloatExec H Unit) := by
  refine .bind (requireFull_retags p 0) fun _ => ?_
  refine .bind (.view _) fun _ => .bind (.view _) fun _ => ?_
  refine .bind (raiseStore_retags p _) fun _ => .bind (storeBytes_retags seg offset _) fun _ => ?_
  exact popIf_retags pops

theorem storeInt_retags (p : Prefixes) (seg : Seg) (offset : Dword) (format : IntFormat)
    (pops : Bool) : Retags (storeInt p seg offset format pops : FloatExec H Unit) := by
  refine .bind (requireFull_retags p 0) fun _ => .bind (.view _) fun _ => ?_
  refine .bind (roundToFormat_retags p format _) fun _ => ?_
  exact .bind (storeBytes_retags seg offset _) fun _ => popIf_retags pops

theorem storeDecimal_retags (p : Prefixes) (seg : Seg) (offset : Dword) :
    Retags (storeDecimal p seg offset : FloatExec H Unit) := by
  refine .bind (requireFull_retags p 0) fun _ => .bind (.view _) fun _ => ?_
  refine .bind (roundToDecimal_retags p _) fun bytes => ?_
  exact .bind (storeBytes_retags seg offset bytes) fun _ => .update Fpu.retags_pop

end FloatExec

/-! ## Instructions -/

namespace Exec

open FloatExec

section Instructions

variable [Host H]

/-- An instruction that is refused has changed nothing. -/
theorem checkAvailable_retags (p : Prefixes) : Retags (checkAvailable p : Exec H Unit) :=
  .of_hasEffect (checkAvailable_hasEffect p) (by decide)

theorem checkReady_retags (p : Prefixes) : Retags (checkReady p : Exec H Unit) := by
  have hclear : Retags (updateFpu (·.setCondition Status.c1 false) : Exec H Unit) :=
    .updateFpu fun _ => .of_eq rfl rfl
  refine .bind (checkAvailable_retags p) fun _ => .bind (.view _) fun _ => ?_
  exact .ite (.bind (.throw _) fun _ => hclear) hclear

/-- To find the operand touches the processor alone. -/
theorem memoryOperand_retags (p : Prefixes) (mb : ModeByte) :
    Retags (memoryOperand p mb : Exec H (Seg × Dword)) := by
  refine .bind (.of_hasEffect (operand_hasEffect p mb) (by decide)) fun place => ?_
  cases place with
  | memory seg offset => exact .pure _
  | register r => exact .throw _

theorem checkLayout_retags (p : Prefixes) (feature : Feature) :
    Retags (checkLayout p feature : Exec H Unit) :=
  .of_hasEffect (checkLayout_hasEffect p feature) (by decide)

omit [Host H] in
/-- The instruction that runs a program retags what the program retags. -/
theorem toExec_retags {x : FloatExec H Unit} (hx : FloatExec.Retags x) : Retags x.toExec :=
  .bind hx fun _ => .pure _

/-- An instruction without an operand in memory. -/
theorem whenReady_retags (p : Prefixes) {action : FloatExec H Unit}
    (ha : FloatExec.Retags action) : Retags (whenReady p action) :=
  .bind (checkReady_retags p) fun _ => toExec_retags ha

/-- An instruction that takes a number from memory. -/
theorem withNumber_retags (p : Prefixes) (mb : ModeByte) (format : NumberFormat)
    {action : FloatExec.Loaded → FloatExec H Unit}
    (ha : ∀ loaded, FloatExec.Retags (action loaded)) : Retags (withNumber p mb format action) := by
  refine .bind (checkReady_retags p) fun _ => .bind (memoryOperand_retags p mb) fun place => ?_
  refine .bind ?_ fun loaded => toExec_retags (ha loaded)
  have hload := (loadBytes_observes place.1 place.2 format.bytes (H := H)).hasEffect
  exact .bind (.of_hasEffect hload (by decide)) fun _ => .pure _

/-- An instruction that stores a number. -/
theorem withPlace_retags (p : Prefixes) (mb : ModeByte) {action : Seg → Dword → FloatExec H Unit}
    (ha : ∀ seg offset, FloatExec.Retags (action seg offset)) :
    Retags (withPlace p mb action) :=
  .bind (checkReady_retags p) fun _ => .bind (memoryOperand_retags p mb) fun place =>
    toExec_retags (ha place.1 place.2)

/-- The control word does not bear on tags. -/
theorem loadControl_retags (p : Prefixes) (mb : ModeByte) :
    Retags (loadControl p mb : Exec H Unit) := by
  refine .bind (checkReady_retags p) fun _ => .bind (memoryOperand_retags p mb) fun place => ?_
  refine .bind (.of_hasEffect (load_observes .word place.1 place.2).hasEffect (by decide)) ?_
  exact fun _ => .updateFpu fun _ => .of_eq rfl rfl

theorem storeWord_retags (p : Prefixes) (mb : ModeByte) (word : Fpu → Word) :
    Retags (storeWord p mb word : Exec H Unit) := by
  refine .bind (checkAvailable_retags p) fun _ => .bind (memoryOperand_retags p mb) fun place => ?_
  exact .bind (.view _) fun _ =>
    .of_hasEffect (store_hasEffect .word place.1 place.2 _) (by decide)

/-- Saving a state empties all registers. -/
theorem saveState_retags (p : Prefixes) (mb : ModeByte) :
    Retags (saveState p mb : Exec H Unit) := by
  refine .bind (checkAvailable_retags p) fun _ => .bind (memoryOperand_retags p mb) fun place => ?_
  refine .bind (checkLayout_retags p _) fun _ => .bind (.view _) fun image => ?_
  refine .bind (.of_hasEffect (storeBytes_hasEffect place.1 place.2 image) (by decide)) fun _ => ?_
  exact .updateFpu fun _ => Fpu.retags_of_reinitialized rfl

/-- A state that is restored may have any tags and contents.  Until then nothing else changes. -/
theorem restoreState_faultsRetag (p : Prefixes) (mb : ModeByte) :
    FaultsRetag (restoreState p mb : Exec H Unit) := by
  refine .after (checkReady_retags p) fun _ => .after (memoryOperand_retags p mb) fun place => ?_
  refine .after (checkLayout_retags p _) fun _ => ?_
  have hload := (loadBytes_observes place.1 place.2 Fpu.imageSize (H := H)).hasEffect
  exact .after (.of_hasEffect hload (by decide)) fun _ m => trivial

theorem statusToAccumulator_retags (p : Prefixes) :
    Retags (statusToAccumulator p : Exec H Unit) :=
  .bind (checkAvailable_retags p) fun _ m => .refl m.fpu

/-- Every instruction of the unit but the one that restores a state retags what it changes. -/
theorem runFloat_retags (p : Prefixes) (mb : ModeByte) {i : FloatInstruction}
    (hi : i ≠ .restore) : Retags (runFloat p mb i : Exec H Unit) := by
  cases i with
  | arithMemory op format =>
    exact withNumber_retags p mb format fun loaded => arithLoaded_retags p op loaded
  | arithTop op i => exact whenReady_retags p (arithTop_retags p op i)
  | arithInto op i pops => exact whenReady_retags p (arithInto_retags p op i pops)
  | compareMemory format pops =>
    exact withNumber_retags p mb format fun loaded => compareLoaded_retags p loaded pops
  | compare i pops => exact whenReady_retags p (compare_retags p i pops)
  | test => exact whenReady_retags p (test_retags p)
  | examine => exact whenReady_retags p examine_retags
  | neg => exact whenReady_retags p (mapTop_retags p _)
  | abs => exact whenReady_retags p (mapTop_retags p _)
  | sqrt => exact whenReady_retags p (sqrt_retags p)
  | roundToIntegral => exact whenReady_retags p (roundToIntegral_retags p)
  | scale => exact whenReady_retags p (scale_retags p)
  | remainder => exact whenReady_retags p (remainder_retags p)
  | powerLessOne => exact whenReady_retags p (powerLessOne_retags p)
  | trig f => exact whenReady_retags p (trig_retags p f)
  | timesLogarithm => exact whenReady_retags p (combine_retags p _)
  | angle => exact whenReady_retags p (combine_retags p _)
  | nothing => exact checkReady_retags p
  | load format => exact withNumber_retags p mb format fun loaded => load_retags p format loaded
  | loadRegister i => exact whenReady_retags p (loadRegister_retags p i)
  | loadConstant c => exact whenReady_retags p (loadConstant_retags p c)
  | storeReal format pops =>
    exact withPlace_retags p mb fun seg offset => storeReal_retags p seg offset format pops
  | storeInt format pops =>
    exact withPlace_retags p mb fun seg offset => storeInt_retags p seg offset format pops
  | storeDecimal => exact withPlace_retags p mb fun seg offset => storeDecimal_retags p seg offset
  | storeRegister i pops => exact whenReady_retags p (storeRegister_retags p i pops)
  | exchange i => exact whenReady_retags p (exchange_retags p i)
  | free i => exact whenReady_retags p (.update fun f => f.retags_setTag_empty i)
  | loadControl => exact loadControl_retags p mb
  | storeControl => exact storeWord_retags p mb Fpu.control
  | storeStatus => exact storeWord_retags p mb Fpu.statusWord
  | statusToAccumulator => exact statusToAccumulator_retags p
  | save => exact saveState_retags p mb
  | restore => exact absurd rfl hi
  | initState =>
    exact .bind (checkAvailable_retags p) fun _ =>
      .updateFpu fun _ => Fpu.retags_of_reinitialized rfl
  | clearExceptions =>
    exact .bind (checkAvailable_retags p) fun _ => .updateFpu fun _ => .of_eq rfl rfl

omit [Host H] in
/-- Remembering an instruction changes no register. -/
theorem remember_retags (remembers : Bool) (p : Prefixes) (number : BitVec 3) (mb : ModeByte) :
    Retags (if remembers then remember p number mb else pure () : Exec H Unit) :=
  .ite (fun _ => .of_eq rfl rfl) (.pure _)

/-- An escape opcode, unless its mode byte makes it restore a state. -/
theorem escape_retags (p : Prefixes) (number : BitVec 3) (m : Machine H) :
    Ends (escape p number) m
      (fun _ m' =>
        (∀ b, value? fetch8 m = some b →
          FloatInstruction.decode number (.ofByte b) ≠ .ok .restore) →
        m.fpu.Retags m'.fpu)
      (fun _ m' => m.fpu.Retags m'.fpu) := by
  have hfetch : Retags (fetch8 : Exec H Byte) := .of_hasEffect fetch8_hasEffect (by decide)
  rw [escape, ends_bind]
  refine (hfetch m).value.mono ?_ fun _ _ h => h
  rintro b m₁ ⟨hv, h₁⟩
  dsimp only
  split
  next fault _ => exact h₁
  next instruction hd =>
    have hremember := remember_retags (H := H) (!instruction.isControl) p number (.ofByte b)
    by_cases hi : instruction = .restore
    · subst hi
      rw [ends_bind]
      refine (restoreState_faultsRetag p (.ofByte b) m₁).mono (fun _ m₂ _ => ?_) fun _ _ h =>
        h₁.trans h
      exact fun hne => absurd hd (hne b hv)
    · have hruns := (runFloat_retags p (.ofByte b) hi).bind fun _ => hremember
      exact (hruns m₁).mono (fun _ _ h _ => h₁.trans h) fun _ _ h => h₁.trans h

end Instructions

end Exec

/-! ## Steps -/

variable [Host H]

/-- A step restores a saved state. -/
def Machine.Restores (m : Machine H) : Prop :=
  m.floatInstruction? = some .restore ∧ m.step.1 = .completed

instance (m : Machine H) : Decidable m.Restores := inferInstanceAs (Decidable (_ ∧ _))

/-- A step that restores no state retags the registers that it changes, however it ends. -/
theorem Machine.step_retags {m : Machine H} (h : ¬m.Restores) : m.fpu.Retags m.step.2.fpu := by
  have hruns := m.step_runs
  unfold Restores at h
  generalize m.step.1 = ending, m.step.2 = m' at hruns h ⊢
  cases hruns with
  | unfetched _ => exact .refl m.fpu
  | never _ => exact .refl m.fpu
  | @completed p i m₁ m₂ hfetch hr =>
    rw [← hfetch.fpu_eq]
    by_cases hi : ∀ number, i ≠ .escape number
    · have hsame := (runInstruction_fpu_eq hi m₁).of_ok hr
      exact .of_eq (congrArg Fpu.regs hsame) (congrArg Fpu.tags hsame)
    · obtain ⟨number, rfl⟩ := by simpa using hi
      have hends := (escape_retags p number m₁).of_ok hr
      refine hends fun b hv hd => h ⟨?_, rfl⟩
      rw [hfetch.floatInstruction? hv, hd]
      rfl
  | @fault p i m₁ m₂ f log hfetch hr =>
    rw [← hfetch.fpu_eq]
    by_cases hi : ∀ number, i ≠ .escape number
    · have hsame := (runInstruction_fpu_eq hi m₁).of_error hr
      exact .of_eq (congrArg Fpu.regs hsame) (congrArg Fpu.tags hsame)
    · obtain ⟨number, rfl⟩ := by simpa using hi
      have hends := (escape_retags p number m₁).of_error hr
      exact hends

/-! ## Runs -/

/-- A machine comes out of another one by steps, however each of them ends, and none of them
restores a saved state. -/
inductive Machine.RunsUnrestored : Machine H → Machine H → Prop where
  | refl (m : Machine H) : RunsUnrestored m m
  | step {m m' : Machine H} :
    ¬m.Restores →
    RunsUnrestored m.step.2 m' →
    RunsUnrestored m m'

/-- Over a run every register is empty, tagged by what it holds, or as it was at the start. -/
theorem Machine.RunsUnrestored.retags {m m' : Machine H} (h : m.RunsUnrestored m') :
    m.fpu.Retags m'.fpu := by
  induction h with
  | refl m => exact .refl m.fpu
  | step hstep _ ih => exact (step_retags hstep).trans ih

/-- From a reset unit on, over steps that may fault but restore no saved state, every register
that is not empty has the tag of what it holds. -/
theorem Machine.tagAt_of_runs {m m' : Machine H} (hreset : m.fpu = m.reset.fpu)
    (hruns : m.RunsUnrestored m') {r : Fin 8} (hr : m'.fpu.tagAt r ≠ .empty) :
    m'.fpu.tagAt r = .ofNumber (m'.fpu.regs.get r) ∧
      m'.fpu.tagAt r = .ofClass (m'.fpu.regs.get r).classify := by
  have hempty : ∀ r : Fin 8, Fpu.initial.tagAt r = .empty := by decide
  have hretags := hruns.retags
  rw [hreset] at hretags
  have htag : m'.fpu.tagAt r = .ofNumber (m'.fpu.regs.get r) := by
    rcases hretags r with hnone | hmatch | ⟨hsame, -⟩
    · exact absurd hnone hr
    · exact hmatch
    · exact absurd (hsame.trans (hempty r)) hr
  exact ⟨htag, htag.trans (Tag.ofNumber_eq_ofClass _)⟩

/-- A machine that pushes one and exchanges it with an empty register. -/
def Machine.pushingOne : Machine Ram :=
  let m := Machine.initial ⟨⟨#[0xD9, 0xE8, 0xD9, 0xC9]⟩, none, 0, #[]⟩ {}
  { m with eip := 0, segs := { Segments.initial with cs := .realMode 0 false } }

/-- The exchange finds the indefinite NaN in the empty register. -/
theorem Machine.tagAt_of_runs_pushingOne :
    pushingOne.fpu = pushingOne.reset.fpu ∧ pushingOne.RunsUnrestored pushingOne.step.2.step.2 ∧
      pushingOne.step.2.step.2.fpu.tagAt 7 ≠ .empty ∧
      pushingOne.step.2.step.2.fpu.tagAt 7 =
        .ofNumber (pushingOne.step.2.step.2.fpu.regs.get 7) ∧
      pushingOne.step.2.step.2.fpu.tagAt 7 =
        .ofClass (pushingOne.step.2.step.2.fpu.regs.get 7).classify := by
  have hruns : pushingOne.RunsUnrestored pushingOne.step.2.step.2 :=
    .step (by decide +kernel) (.step (by decide +kernel) (.refl _))
  have hr : pushingOne.step.2.step.2.fpu.tagAt 7 ≠ .empty := by decide +kernel
  exact ⟨rfl, hruns, hr, tagAt_of_runs rfl hruns hr⟩

end Ia32
