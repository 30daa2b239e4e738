import Ia32.Instr.Fpu.Run
import Ia32.Proofs.Access
import Ia32.Proofs.FpuStates

/-!
# Instructions that an exception stops

An exception that is not masked stops an instruction.  What the instruction has
done by then stays done, so everything that can be stopped must come before the
first store, push or pop.

A program is *careful* when it stores nothing, pushes and pops nothing and
empties no register, whether it is stopped or not.  A program is *final* when it
is careful up to the last exception that can stop it, and then does what it
likes.  A careful program may be followed by a final one, a final one only by
what cannot be stopped.

Both judgements carry along that the unit stays well formed, if it is known to
be so at the start: a number read off a register then has an encoding.
-/

namespace Ia32

variable {H : Type}

/-- Nothing was stored, pushed or popped, and no register was emptied. -/
structure Machine.Undisturbed (m m' : Machine H) : Prop where
  host : m'.host = m.host
  top : m'.fpu.top = m.fpu.top
  tags : ∀ r, m'.fpu.tagAt r = .empty → m.fpu.tagAt r = .empty

namespace Machine.Undisturbed

/-- Nothing at all has happened. -/
theorem refl (m : Machine H) : m.Undisturbed m := ⟨rfl, rfl, fun _ h => h⟩

theorem trans {m m' m'' : Machine H} (h : m.Undisturbed m') (h' : m'.Undisturbed m'') :
    m.Undisturbed m'' :=
  ⟨h'.host.trans h.host, h'.top.trans h.top, fun r ht => h.tags r (h'.tags r ht)⟩

end Machine.Undisturbed

/-! ## Effects that leave the unit alone -/

/-- A footprint has no part of the unit. -/
def Footprint.SparesFloat (S : Footprint) : Prop := .float ∉ S ∧ .floatStatus ∉ S

instance (S : Footprint) : Decidable S.SparesFloat := inferInstanceAs (Decidable (_ ∧ _))

/-- Neither an answer nor a fault changes the unit. -/
def Effect.SparesFloat (e : Effect) : Prop :=
  e.answer.SparesFloat ∧ ∀ S ∈ e.fault, S.SparesFloat

instance (e : Effect) : Decidable e.SparesFloat := inferInstanceAs (Decidable (_ ∧ ∀ _ ∈ _, _))

/-- What has such an effect leaves the unit as it is, also when it faults. -/
theorem Exec.HasEffect.fpu_eq [Host H] {α : Type} {e : Effect} {x : Exec H α} (hx : HasEffect e x)
    (he : e.SparesFloat) (m : Machine H) :
    Ends x m (fun _ m' => m'.fpu = m.fpu) (fun _ m' => m'.fpu = m.fpu) := by
  have hall : CoversSegments (fun _ _ _ => True) m := fun _ _ _ _ _ => trivial
  refine (hx hall).mono (fun _ m' h => h.fpu_eq he.1.1 he.1.2) fun f m' h => ?_
  obtain ⟨S, hS, ha⟩ := h.fault
  exact ha.fpu_eq (he.2 S hS).1 (he.2 S hS).2

/-! ## Changes of the unit -/

/-- A change of the unit keeps it well formed and says nothing about pending exceptions. -/
structure Fpu.Settled (known : Prop) (f f' : Fpu) : Prop where
  wellFormed : (known → f.WellFormed) → known → f'.WellFormed
  pending : f'.isPending = f.isPending

/-- A change of the unit pushes and pops nothing and empties no register. -/
structure Fpu.Gentle (known : Prop) (f f' : Fpu) : Prop extends Fpu.Settled known f f' where
  top : f'.top = f.top
  tags : ∀ r, f'.tagAt r = .empty → f.tagAt r = .empty

namespace Fpu

variable {known : Prop} {f f' f'' : Fpu}

theorem Gentle.trans (h : Gentle known f f') (h' : Gentle known f' f'') : Gentle known f f'' where
  wellFormed hf := h'.wellFormed (h.wellFormed hf)
  pending := h'.pending.trans h.pending
  top := h'.top.trans h.top
  tags r ht := h.tags r (h'.tags r ht)

/-- Condition bits are no exception flags, and a pending exception stays as pending as it was. -/
theorem gentle_setCondition (f : Fpu) {bits : Word} (hb : bits &&& ~~~conditions = 0) (on : Bool) :
    Gentle known f (f.setCondition bits on) where
  wellFormed hf hk := (hf hk).setCondition hb on
  pending := f.isPending_setCondition (and_eq_zero_of_within hb (by decide)) on
  top := rfl
  tags _ h := h

theorem Gentle.setCondition (h : Gentle known f f') {bits : Word}
    (hb : bits &&& ~~~conditions = 0) {on : Bool} : Gentle known f (f'.setCondition bits on) :=
  h.trans (f'.gentle_setCondition hb on)

/-- A register that is overwritten is not empty afterwards. -/
theorem gentle_store (f : Fpu) (i : Nat) {x : Extended} (hx : known → x.HasEncoding) :
    Gentle known f (f.store i x) where
  wellFormed hf hk := (hf hk).store i (hx hk)
  pending := rfl
  top := rfl
  tags _ h := tagAt_of_store_empty h

/-- A pop is no gentle change, as it empties a register, but what it leaves is well formed. -/
theorem settled_pop (f : Fpu) : Settled known f f.pop := ⟨fun hf hk => (hf hk).pop, rfl⟩

/-- A number that is pushed must have an encoding for the unit to stay well formed. -/
theorem settled_pushNumber (f : Fpu) {x : Extended} (hx : known → x.HasEncoding) :
    Settled known f (f.pushNumber x) :=
  ⟨fun hf hk => (hf hk).pushNumber (hx hk), rfl⟩

theorem settled_setTag (f : Fpu) (i : Nat) (t : Tag) : Settled known f (f.setTag i t) :=
  ⟨fun hf hk => (hf hk).setTagAt _ t, rfl⟩

/-- However many registers are popped, no exception becomes pending by it. -/
theorem settled_repeat_pop (f : Fpu) (n : Nat) : Settled known f (Nat.repeat pop n f) where
  wellFormed hf hk := (hf hk).repeat_pop n
  pending := by
    induction n with
    | zero => rfl
    | succ n ih => exact ih

end Fpu

namespace FloatExec

variable {α β : Type} {known : Prop}

/-! ## The judgements -/

/-- A program, stopped or not, stores nothing, pushes and pops nothing and empties no register.
Unless it is stopped, it leaves no new exception pending. -/
def Careful (known : Prop) (x : FloatExec H α) : Prop :=
  ∀ m : Machine H, (known → m.fpu.WellFormed) →
    Exec.Ends x.run m
      (fun a? m' => (known → m'.fpu.WellFormed) ∧ m.Undisturbed m' ∧
        (a?.isSome → m'.fpu.isPending = m.fpu.isPending))
      (fun _ m' => (known → m'.fpu.WellFormed) ∧ m'.fpu.isPending = m.fpu.isPending)

/-- A program, if it is stopped, has stored nothing, pushed and popped nothing and emptied no
register.  Unless it is stopped, it leaves no new exception pending. -/
def Final (known : Prop) (x : FloatExec H α) : Prop :=
  ∀ m : Machine H, (known → m.fpu.WellFormed) →
    Exec.Ends x.run m
      (fun a? m' => (known → m'.fpu.WellFormed) ∧ (a? = none → m.Undisturbed m') ∧
        (a?.isSome → m'.fpu.isPending = m.fpu.isPending))
      (fun _ m' => (known → m'.fpu.WellFormed) ∧ m'.fpu.isPending = m.fpu.isPending)

/-- A careful program may stand at the end. -/
theorem Careful.final {x : FloatExec H α} (hx : Careful known x) : Final known x := fun m hm =>
  (hx m hm).mono (fun _ _ h => ⟨h.1, fun _ => h.2.1, h.2.2⟩) fun _ _ h => h

/-- A program is not stopped and leaves no new exception pending. -/
def Unstopped (known : Prop) (x : FloatExec H α) : Prop :=
  ∀ m : Machine H, (known → m.fpu.WellFormed) →
    Exec.Ends x.run m
      (fun a? m' => a?.isSome ∧ (known → m'.fpu.WellFormed) ∧ m'.fpu.isPending = m.fpu.isPending)
      (fun _ m' => (known → m'.fpu.WellFormed) ∧ m'.fpu.isPending = m.fpu.isPending)

/-- A program that is not stopped may do what it likes. -/
theorem Unstopped.final {x : FloatExec H α} (hx : Unstopped known x) : Final known x := by
  intro m hm
  refine (hx m hm).mono ?_ fun _ _ h => h
  rintro a? m' ⟨hsome, hw, hp⟩
  exact ⟨hw, fun hnone => by simp [hnone] at hsome, fun _ => hp⟩

theorem Unstopped.pure (a : α) : Unstopped known (Pure.pure a : FloatExec H α) :=
  fun _ hm => ⟨rfl, hm, rfl⟩

/-- A change of the unit stops nothing. -/
theorem Unstopped.update {g : Fpu → Fpu} (hg : ∀ f : Fpu, f.Settled known (g f)) :
    Unstopped known (update g : FloatExec H Unit) :=
  fun m hm => ⟨rfl, (hg m.fpu).wellFormed hm, (hg m.fpu).pending⟩

/-! ## Sequences -/

namespace Careful

/-- Careful programs may follow one another: wherever the whole is stopped, only careful steps were
taken. -/
theorem bind {x : FloatExec H β} {k : β → FloatExec H α} (hx : Careful known x)
    (hk : ∀ b, Careful known (k b)) : Careful known (x >>= k) := by
  intro m hm
  change Exec.Ends (x.run >>= _) m _ _
  rw [Exec.ends_bind]
  refine (hx m hm).mono (fun b? m₁ h₁ => ?_) fun _ _ h => h
  obtain ⟨hw, hu, hp⟩ := h₁
  cases b? with
  | none => exact ⟨hw, hu, fun h => nomatch h⟩
  | some b =>
    refine (hk b m₁ hw).mono ?_ ?_
    · rintro a? m₂ ⟨hw₂, hu₂, hp₂⟩
      exact ⟨hw₂, hu.trans hu₂, fun h => (hp₂ h).trans (hp rfl)⟩
    · rintro f m₂ ⟨hw₂, hp₂⟩
      exact ⟨hw₂, hp₂.trans (hp rfl)⟩

/-- What is read off the unit may be used with what is known of the unit. -/
theorem reading {g : Fpu → β} {k : β → FloatExec H α}
    (hk : ∀ f : Fpu, (known → f.WellFormed) → Careful known (k (g f))) :
    Careful known (view g >>= k) :=
  fun m hm => hk m.fpu hm m hm

theorem pure (a : α) : Careful known (Pure.pure a : FloatExec H α) :=
  fun m hm => ⟨hm, .refl m, fun _ => rfl⟩

/-- Whichever case is taken is careful. -/
theorem ite {c : Prop} [Decidable c] {x y : FloatExec H α} (hx : Careful known x)
    (hy : Careful known y) : Careful known (if c then x else y) := by
  split
  · exact hx
  · exact hy

/-- A step that is taken under a condition, and what follows it in either case. -/
theorem when {c : Prop} [Decidable c] {x : FloatExec H β} {k : β → FloatExec H α}
    {y : FloatExec H α} (hx : Careful known x) (hk : ∀ b, Careful known (k b))
    (hy : Careful known y) : Careful known (if c then x >>= k else y) :=
  ite (bind hx hk) hy

/-- A gentle change is careful. -/
theorem update {g : Fpu → Fpu} (hg : ∀ f : Fpu, f.Gentle known (g f)) :
    Careful known (update g : FloatExec H Unit) :=
  fun m hm => ⟨(hg m.fpu).wellFormed hm, ⟨rfl, (hg m.fpu).top, (hg m.fpu).tags⟩,
    fun _ => (hg m.fpu).pending⟩

end Careful

namespace Final

/-- A program that is followed by what stores, pushes or pops must be careful. -/
theorem after {x : FloatExec H β} {k : β → FloatExec H α} (hx : Careful known x)
    (hk : ∀ b, Final known (k b)) : Final known (x >>= k) := by
  intro m hm
  change Exec.Ends (x.run >>= _) m _ _
  rw [Exec.ends_bind]
  refine (hx m hm).mono (fun b? m₁ h₁ => ?_) fun _ _ h => h
  obtain ⟨hw, hu, hp⟩ := h₁
  cases b? with
  | none => exact ⟨hw, fun _ => hu, fun h => nomatch h⟩
  | some b =>
    refine (hk b m₁ hw).mono ?_ ?_
    · rintro a? m₂ ⟨hw₂, hu₂, hp₂⟩
      exact ⟨hw₂, fun h => hu.trans (hu₂ h), fun h => (hp₂ h).trans (hp rfl)⟩
    · rintro f m₂ ⟨hw₂, hp₂⟩
      exact ⟨hw₂, hp₂.trans (hp rfl)⟩

/-- What is read off the unit may be used in the same way before a store. -/
theorem reading {g : Fpu → β} {k : β → FloatExec H α}
    (hk : ∀ f : Fpu, (known → f.WellFormed) → Final known (k (g f))) :
    Final known (view g >>= k) :=
  fun m hm => hk m.fpu hm m hm

theorem ite {c : Prop} [Decidable c] {x y : FloatExec H α} (hx : Final known x)
    (hy : Final known y) : Final known (if c then x else y) := by
  split
  · exact hx
  · exact hy

/-- The step under the condition comes before a store, so it must be careful itself. -/
theorem when {c : Prop} [Decidable c] {x : FloatExec H β} {k : β → FloatExec H α}
    {y : FloatExec H α} (hx : Careful known x) (hk : ∀ b, Final known (k b))
    (hy : Final known y) : Final known (if c then x >>= k else y) :=
  ite (after hx hk) hy

/-- Nothing stops what follows, so it may follow a store. -/
theorem thenCommit {x : FloatExec H β} {k : β → FloatExec H α} (hx : Final known x)
    (hk : ∀ b, Unstopped known (k b)) : Final known (x >>= k) := by
  intro m hm
  change Exec.Ends (x.run >>= _) m _ _
  rw [Exec.ends_bind]
  refine (hx m hm).mono (fun b? m₁ h₁ => ?_) fun _ _ h => h
  obtain ⟨hw, hu, hp⟩ := h₁
  cases b? with
  | none => exact ⟨hw, fun _ => hu rfl, fun h => nomatch h⟩
  | some b =>
    refine (hk b m₁ hw).mono ?_ ?_
    · rintro a? m₂ ⟨hsome, hw₂, hp₂⟩
      exact ⟨hw₂, fun hnone => by simp [hnone] at hsome, fun _ => hp₂.trans (hp rfl)⟩
    · rintro f m₂ ⟨hw₂, hp₂⟩
      exact ⟨hw₂, hp₂.trans (hp rfl)⟩

end Final

/-- To pop is the last thing that an instruction does. -/
theorem popIf_unstopped (pops : Bool) : Unstopped known (popIf pops : FloatExec H Unit) := by
  cases pops with
  | true => exact .update Fpu.settled_pop
  | false => exact .pure ()

/-! ## Exceptions -/

theorem run_lift_bind (x : Exec H β) (k : β → FloatExec H α) :
    ((x : FloatExec H β) >>= k).run = x >>= fun b => (k b).run := by
  simp

/-- To look at the machine disturbs nothing. -/
theorem Careful.get :
    Careful known ((MonadState.get : Exec H (Machine H)) : FloatExec H (Machine H)) :=
  fun m hm => ⟨hm, .refl m, fun _ => rfl⟩

/-- A masked exception is only recorded.  One that is not masked is recorded too, and stops the
program before anything else happens. -/
theorem raise_careful (p : Prefixes) {bits : Word} (hb : bits &&& ~~~Fpu.raisable = 0) :
    Careful known (raise p bits : FloatExec H Unit) := by
  intro m hm
  have hw : known → (m.fpu.raise bits).2.WellFormed := fun hk => (hm hk).raise hb
  have htags r (ht : (m.fpu.raise bits).2.tagAt r = .empty) : m.fpu.tagAt r = .empty := by
    rwa [Fpu.tagAt, m.fpu.tags_raise bits] at ht
  unfold raise record
  rw [run_lift_bind, Exec.ends_bind, Exec.ends_updateWith]
  -- What is pending afterwards matters only if the program goes on.
  cases hstops : (m.fpu.raise bits).1 with
  | true => exact ⟨hw, ⟨rfl, m.fpu.top_raise bits, htags⟩, fun h => nomatch h⟩
  | false =>
    exact ⟨hw, ⟨rfl, m.fpu.top_raise bits, htags⟩, fun _ => m.fpu.isPending_raise hb hstops⟩

theorem raiseIfAmong_careful (p : Prefixes) (exceptions : Word) {bit : Word}
    (hb : bit &&& ~~~Fpu.raisable = 0) :
    Careful known (raiseIfAmong p exceptions bit : FloatExec H Unit) :=
  .ite (.pure _) (raise_careful p hb)

/-- Condition bits may change before an exception stops the program. -/
theorem setCondition_careful {bits : Word} (hb : bits &&& ~~~Fpu.conditions = 0) (on : Bool) :
    Careful known (update (·.setCondition bits on) : FloatExec H Unit) :=
  .update fun f => f.gentle_setCondition hb on

/-- The exceptions of a list are raised one after the other.  The first that is not masked stops the
program, and those after it are not even recorded. -/
theorem raiseEach_careful (p : Prefixes) (exceptions : Word) {bits : List Word}
    (hb : ∀ bit ∈ bits, bit &&& ~~~Fpu.raisable = 0) :
    Careful known (raiseEach p exceptions bits : FloatExec H Unit) := by
  induction bits with
  | nil => exact .pure _
  | cons bit bits ih =>
    have ih := ih fun b h => hb b (List.mem_cons_of_mem _ h)
    unfold raiseEach
    extract_lets rest raised
    have hr : ∀ u, Careful known (raised u) := fun _ =>
      .bind (raise_careful p (hb bit List.mem_cons_self)) fun _ => ih
    refine .ite ?_ ih
    exact .when (setCondition_careful (by decide) false) hr (hr ())

/-- All exceptions that a result can have are among those that are raised. -/
theorem raiseAfter_careful (p : Prefixes) (exceptions : Word) :
    Careful known (raiseAfter p exceptions : FloatExec H Unit) := by
  apply raiseEach_careful
  intro bit hbit
  simp only [List.mem_cons, List.not_mem_nil, or_false] at hbit
  rcases hbit with rfl | rfl | rfl | rfl | rfl <;> decide

/-- An empty register stops the program before it is written. -/
theorem requireFull_careful (p : Prefixes) (i : Nat) :
    Careful known (requireFull p i : FloatExec H Unit) := by
  refine .reading fun f _ => .ite ?_ (.pure _)
  exact .bind (setCondition_careful (by decide) false) fun _ => raise_careful p (by decide)

/-- A full register stops the program before it is pushed upon. -/
theorem requireRoom_careful (p : Prefixes) :
    Careful known (requireRoom p : FloatExec H Unit) := by
  refine .reading fun f _ => .ite ?_ (.pure _)
  exact .bind (setCondition_careful (by decide) true) fun _ => raise_careful p (by decide)

theorem checkDenormal_careful (p : Prefixes) (x : Extended) :
    Careful known (checkDenormal p x : FloatExec H Unit) :=
  .ite (raise_careful p (by decide)) (.pure _)

/-- Operands are checked before anything is stored. -/
theorem checkOperand_careful (p : Prefixes) (x : Extended) (denormal : Bool) :
    Careful known (checkOperand p x denormal : FloatExec H Unit) :=
  .ite (raise_careful p (by decide)) (.ite (raise_careful p (by decide)) (.pure _))

/-! ## Arithmetic -/

theorem checkDivisor_careful (p : Prefixes) (op : FloatOp) (a b : Extended) :
    Careful known (checkDivisor p op a b : FloatExec H Unit) := by
  unfold checkDivisor
  split
  · exact .bind .get fun m => .ite (raise_careful p (by decide)) (.pure _)
  · exact .pure _

/-- The exceptions of a result come after it is written, and before anything is popped. -/
theorem storeResult_careful (p : Prefixes) (i : Nat) {r : Rounded}
    (hr : known → r.value.HasEncoding) :
    Careful known (storeResult p i r : FloatExec H Unit) :=
  .bind (.update fun f => f.gentle_store i hr) fun _ => raiseAfter_careful p r.exceptions

/-- The divisor is checked before the result is written.  The result has an encoding because its
operands have. -/
theorem arith_careful (p : Prefixes) (op : FloatOp) (i : Nat) {a b : Extended}
    (ha : known → a.HasEncoding) (hb : known → b.HasEncoding) :
    Careful known (arith p op i a b : FloatExec H Unit) := by
  refine .bind (checkDivisor_careful p op a b) fun _ => .reading fun f _ => ?_
  exact storeResult_careful p i fun hk => Extended.op_hasEncoding _ op (ha hk) (hb hk)

/-- A number from memory has an encoding, in whatever format it was. -/
theorem arithLoaded_careful (p : Prefixes) (op : FloatOp) {loaded : Loaded}
    (hl : known → loaded.value.HasEncoding) :
    Careful known (arithLoaded p op loaded : FloatExec H Unit) := by
  refine .bind (requireFull_careful p 0) fun _ => ?_
  have ha : Careful known
      (do arith p op 0 (← view (·.value 0)) loaded.value : FloatExec H Unit) :=
    .reading fun f hf => arith_careful p op 0 (fun hk => (hf hk).value 0) hl
  exact .when (raise_careful p (by decide)) (fun _ => ha) ha

/-- Nothing is popped by an operation on the top register, so it is careful to its end. -/
theorem arithTop_careful (p : Prefixes) (op : FloatOp) (i : Nat) :
    Careful known (arithTop p op i : FloatExec H Unit) := by
  refine .bind (requireFull_careful p 0) fun _ => .bind (requireFull_careful p i) fun _ => ?_
  refine .reading fun f hf => .reading fun g hg => ?_
  exact arith_careful p op 0 (fun hk => (hf hk).value 0) fun hk => (hg hk).value i

/-- An operation that pops is final only: the pop comes after the last exception. -/
theorem arithInto_final (p : Prefixes) (op : FloatOp) (i : Nat) (pops : Bool) :
    Final known (arithInto p op i pops : FloatExec H Unit) := by
  refine .after (requireFull_careful p 0) fun _ => .after (requireFull_careful p i) fun _ => ?_
  refine .reading fun f hf => .reading fun g hg => ?_
  refine .thenCommit (Careful.final ?_) fun _ => popIf_unstopped pops
  exact arith_careful p op i (fun hk => (hf hk).value i) fun hk => (hg hk).value 0

/-! ## Comparisons -/

/-- The answer of a comparison is made of condition bits. -/
theorem setComparison_careful {bits : Word} (hb : bits &&& ~~~Fpu.conditions = 0) :
    Careful known (setComparison bits : FloatExec H Unit) :=
  .update fun f => (f.gentle_setCondition (by decide) false).setCondition hb

theorem relationConditions_within (r : Relation) :
    relationConditions r &&& ~~~Fpu.conditions = 0 := by
  cases r <;> decide

theorem classConditions_within (c : FloatClass) : classConditions c &&& ~~~Fpu.conditions = 0 := by
  cases c <;> decide

/-- A comparison that is stopped has set its conditions to unordered and popped nothing. -/
theorem compareLoaded_final (p : Prefixes) (loaded : Loaded) (pops : Bool) :
    Final known (compareLoaded p loaded pops : FloatExec H Unit) := by
  refine .after (setComparison_careful (by decide)) fun _ => ?_
  refine .after (requireFull_careful p 0) fun _ => .reading fun f _ => ?_
  refine .after (checkOperand_careful p _ false) fun _ => ?_
  refine .after (checkOperand_careful p loaded.value loaded.denormal) fun _ => ?_
  refine .thenCommit (Careful.final ?_) fun _ => popIf_unstopped pops
  exact setComparison_careful (relationConditions_within _)

/-- Both operands are checked before either is popped. -/
theorem compare_final (p : Prefixes) (i pops : Nat) :
    Final known (compare p i pops : FloatExec H Unit) := by
  refine .after (requireFull_careful p 0) fun _ => .after (requireFull_careful p i) fun _ => ?_
  refine .after (setComparison_careful (by decide)) fun _ => ?_
  refine .reading fun f _ => .reading fun g _ => ?_
  refine .after (checkOperand_careful p _ false) fun _ => ?_
  refine .after (checkOperand_careful p _ false) fun _ => ?_
  refine .after (setComparison_careful (relationConditions_within _)) fun _ => ?_
  exact Unstopped.final (.update fun f => f.settled_repeat_pop pops)

/-- A comparison with zero pops nothing. -/
theorem test_careful (p : Prefixes) : Careful known (test p : FloatExec H Unit) := by
  refine .bind (setComparison_careful (by decide)) fun _ => ?_
  refine .bind (requireFull_careful p 0) fun _ => .reading fun f _ => ?_
  refine .bind (checkOperand_careful p _ false) fun _ => ?_
  exact setComparison_careful (relationConditions_within _)

theorem examine_careful : Careful known (examine : FloatExec H Unit) := by
  refine .reading fun f _ => .bind (setCondition_careful (by decide) _) fun _ => ?_
  refine .reading fun g _ => .ite ?_ ?_
  · exact setComparison_careful (by decide)
  · exact setComparison_careful (classConditions_within _)

/-! ## Functions of one register -/

/-- A function that keeps encodings may be applied to the top register. -/
theorem mapTop_careful (p : Prefixes) {f : Extended → Extended}
    (hf : ∀ x : Extended, x.HasEncoding → (f x).HasEncoding) :
    Careful known (mapTop p f : FloatExec H Unit) := by
  refine .bind (requireFull_careful p 0) fun _ => .reading fun s hs => ?_
  exact .update fun t => t.gentle_store 0 fun hk => hf _ ((hs hk).value 0)

theorem sqrt_careful (p : Prefixes) : Careful known (sqrt p : FloatExec H Unit) := by
  refine .bind (requireFull_careful p 0) fun _ => .reading fun f hf => ?_
  refine .bind (checkDenormal_careful p _) fun _ => .reading fun g _ => ?_
  exact storeResult_careful p 0 fun hk => Extended.sqrt_hasEncoding _ ((hf hk).value 0)

/-- A number without a fraction is only made quiet; another one is stored with its exceptions. -/
theorem roundToIntegral_careful (p : Prefixes) :
    Careful known (roundToIntegral p : FloatExec H Unit) := by
  refine .bind (requireFull_careful p 0) fun _ => .reading fun f hf => .ite ?_ ?_
  · have hs : Careful known (update (·.store 0 (f.value 0).quiet) : FloatExec H Unit) :=
      .update fun g => g.gentle_store 0 fun hk => Extended.quiet_hasEncoding ((hf hk).value 0)
    exact .when (raise_careful p (by decide)) (fun _ => hs) hs
  · refine .bind (checkDenormal_careful p _) fun _ => .reading fun g _ => ?_
    exact storeResult_careful p 0 fun hk =>
      Extended.roundToIntegral_hasEncoding _ ((hf hk).value 0)

theorem powerLessOne_careful (p : Prefixes) :
    Careful known (powerLessOne p : FloatExec H Unit) := by
  refine .bind (requireFull_careful p 0) fun _ => .reading fun f hf => ?_
  refine .bind (checkOperand_careful p _ false) fun _ => ?_
  exact storeResult_careful p 0 fun hk => Extended.powerLessOne_hasEncoding ((hf hk).value 0)

/-! ## Functions of an angle -/

/-- The room for the second result was asked for long before. -/
theorem pushTangent_unstopped (f : Trig) {x : Extended} (hx : known → x.HasEncoding) :
    Unstopped known (if f = .tan then update (·.pushNumber x) else pure () : FloatExec H Unit) := by
  split
  · exact .update fun g => g.settled_pushNumber hx
  · exact .pure _

theorem storeTwice_final (f : Trig) {x : Extended} (hx : known → x.HasEncoding) :
    Final known (storeTwice f x : FloatExec H Unit) :=
  .after (.update fun g => g.gentle_store 0 hx) fun _ => (pushTangent_unstopped f hx).final

/-- Both the denormal operand and the inexact result are raised before the second result is pushed.
-/
theorem trigFinite_final (p : Prefixes) (f : Trig) {x : Extended} (hx : known → x.HasEncoding) :
    Final known (trigFinite p f x : FloatExec H Unit) := by
  refine .after (setCondition_careful (by decide) false) fun _ => ?_
  refine .after (checkDenormal_careful p x) fun _ => ?_
  refine .after (storeResult_careful p 0 fun hk => f.apply_hasEncoding (hx hk)) fun _ => ?_
  exact (pushTangent_unstopped f fun _ => Extended.one_hasEncoding).final

/-- The tangent asks for room first, before the operand is looked at. -/
theorem trig_final (p : Prefixes) (f : Trig) : Final known (trig p f : FloatExec H Unit) := by
  refine .after (requireFull_careful p 0) fun _ => ?_
  extract_lets classes
  have hclasses : ∀ u, Final known (classes u) := by
    intro _
    refine .reading fun g hg => ?_
    have hx : known → (g.value 0).HasEncoding := fun hk => (hg hk).value 0
    have hquiet : Final known (storeTwice f (g.value 0).quiet : FloatExec H Unit) :=
      storeTwice_final f fun hk => Extended.quiet_hasEncoding (hx hk)
    refine .ite ?_ (.ite ?_ (.ite ?_ ?_))
    · exact .when (raise_careful p (by decide)) (fun _ => hquiet) hquiet
    · refine .after (raise_careful p (by decide)) fun _ => ?_
      refine .after (setCondition_careful (by decide) false) fun _ => ?_
      exact storeTwice_final f fun _ => Extended.indefinite_hasEncoding
    · exact (setCondition_careful (by decide) true).final
    · exact trigFinite_final p f hx
  exact .when (requireRoom_careful p) hclasses (hclasses ())

/-! ## Functions of two registers -/

theorem scale_careful (p : Prefixes) : Careful known (scale p : FloatExec H Unit) := by
  refine .bind (requireFull_careful p 0) fun _ => .bind (requireFull_careful p 1) fun _ => ?_
  refine .reading fun f hf => .reading fun g hg => .reading fun _ _ => ?_
  exact storeResult_careful p 0 fun hk =>
    Extended.scaleByNumber_hasEncoding _ ((hf hk).value 0) ((hg hk).value 1)

/-- The bits of the quotient stand in the condition bits. -/
theorem gentle_remainderConditions (r : PartialRemainder) (f : Fpu) :
    f.Gentle known (remainderConditions r f) := by
  unfold remainderConditions
  dsimp only
  split
  · refine .setCondition (.setCondition (.setCondition ?_ (by decide)) (by decide)) (by decide)
    exact f.gentle_setCondition (by decide) _
  · exact f.gentle_setCondition (by decide) _

/-- The remainder is written together with the bits of the quotient, before its exceptions. -/
theorem remainder_careful (p : Prefixes) : Careful known (remainder p : FloatExec H Unit) := by
  refine .bind (requireFull_careful p 0) fun _ => .bind (requireFull_careful p 1) fun _ => ?_
  refine .reading fun f hf => .reading fun g hg => ?_
  refine .bind (checkDenormal_careful p _) fun _ => .bind (checkDenormal_careful p _) fun _ => ?_
  refine .bind (raiseIfAmong_careful p _ (by decide)) fun _ => ?_
  refine .bind (.update fun s => ?_) fun _ => raiseAfter_careful p _
  refine (s.gentle_store 0 fun hk => ?_).trans (gentle_remainderConditions _ _)
  exact Extended.partialRemainder_hasEncoding ((hf hk).value 0) ((hg hk).value 1)

/-- The result is written into the second register and its exceptions raised; then the first one is
popped. -/
theorem combine_final (p : Prefixes) {f : (y x : Extended) → Rounded}
    (hf : ∀ y x : Extended, y.HasEncoding → x.HasEncoding → (f y x).value.HasEncoding) :
    Final known (combine p f : FloatExec H Unit) := by
  refine .after (requireFull_careful p 0) fun _ => .after (requireFull_careful p 1) fun _ => ?_
  refine .reading fun s hs => .reading fun t ht => ?_
  refine .after (raiseIfAmong_careful p _ (by decide)) fun _ => ?_
  refine .after (raiseIfAmong_careful p _ (by decide)) fun _ => ?_
  refine .thenCommit (Careful.final ?_) fun _ => .update Fpu.settled_pop
  exact storeResult_careful p 1 fun hk => hf _ _ ((hs hk).value 1) ((ht hk).value 0)

/-! ## Loads -/

/-- A number that is loaded has an encoding, in whatever format it was. -/
theorem ofBytes_hasEncoding (format : NumberFormat) (bytes : List Byte) :
    (Loaded.ofBytes format bytes).value.HasEncoding := by
  cases format with
  | real format =>
    cases format with
    | single => exact Extended.decode_hasEncoding (.inl rfl) _
    | double => exact Extended.decode_hasEncoding (.inr rfl) _
    | extended => exact Extended.ofBytes_hasEncoding bytes
  | int format => cases format <;> exact Extended.ofInt_toInt_hasEncoding (by decide) _

/-- A signalling value stops a load before the push. -/
theorem load_final (p : Prefixes) (format : NumberFormat) {loaded : Loaded}
    (hl : known → loaded.value.HasEncoding) :
    Final known (load p format loaded : FloatExec H Unit) := by
  refine .after (requireRoom_careful p) fun _ => .ite ?_ ?_
  · refine .after (raise_careful p (by decide)) fun _ => Unstopped.final (.update fun f => ?_)
    exact f.settled_pushNumber fun hk => Extended.quiet_hasEncoding (hl hk)
  · have hp : Final known (update (·.pushNumber loaded.value) : FloatExec H Unit) :=
      Unstopped.final (.update fun f => f.settled_pushNumber hl)
    exact .when (raise_careful p (by decide)) (fun _ => hp) hp

/-- A copy of a register is as well encoded as the register. -/
theorem loadRegister_final (p : Prefixes) (i : Nat) :
    Final known (loadRegister p i : FloatExec H Unit) := by
  refine .after (requireFull_careful p i) fun _ => .reading fun f hf => ?_
  refine .after (requireRoom_careful p) fun _ => Unstopped.final (.update fun g => ?_)
  exact g.settled_pushNumber fun hk => (hf hk).value i

theorem constant_hasEncoding (c : Constant) : c.value.HasEncoding := by
  cases c <;> decide

theorem loadConstant_final (p : Prefixes) (c : Constant) :
    Final known (loadConstant p c : FloatExec H Unit) := by
  refine .after (requireRoom_careful p) fun _ => Unstopped.final (.update fun f => ?_)
  exact f.settled_pushNumber fun _ => constant_hasEncoding c

/-! ## Registers -/

/-- A store into a register raises nothing once the source is known to be full. -/
theorem storeRegister_final (p : Prefixes) (i : Nat) (pops : Bool) :
    Final known (storeRegister p i pops : FloatExec H Unit) := by
  refine .after (requireFull_careful p 0) fun _ => .reading fun f hf => ?_
  refine .after (.update fun g => ?_) fun _ => (popIf_unstopped pops).final
  exact g.gentle_store i fun hk => (hf hk).value 0

/-- Two full registers are exchanged: neither is emptied. -/
theorem exchange_careful (p : Prefixes) (i : Nat) :
    Careful known (exchange p i : FloatExec H Unit) := by
  refine .bind (requireFull_careful p 0) fun _ => .bind (requireFull_careful p i) fun _ => ?_
  refine .reading fun f hf => .reading fun g hg => .update fun s => ?_
  refine (s.gentle_store 0 fun hk => ?_).trans (Fpu.gentle_store _ i fun hk => ?_)
  · exact (hg hk).value i
  · exact (hf hk).value 0

/-! ## Stores -/

/-- All exceptions of a store are raised before the store. -/
theorem raiseStore_careful (p : Prefixes) (exceptions : Word) :
    Careful known (raiseStore p exceptions : FloatExec H Unit) := by
  refine .bind (raiseIfAmong_careful p _ (by decide)) fun _ => ?_
  refine .bind (raiseAfter_careful p _) fun _ => .bind .get fun m => ?_
  exact .ite (setCondition_careful (by decide) false) (raiseAfter_careful p _)

/-- A value outside the format is an exception before the store. -/
theorem roundToFormat_careful (p : Prefixes) (format : IntFormat) (x : Extended) :
    Careful known (roundToFormat p format x : FloatExec H Int) := by
  have hi : Careful known (do
      raise p Exception.invalid
      return format.least : FloatExec H Int) :=
    .bind (raise_careful p (by decide)) fun _ => .pure _
  refine .reading fun f _ => ?_
  split
  · exact .ite (.when (raiseAfter_careful p _) (fun _ => .pure _) (.pure _)) hi
  · exact hi

theorem roundToDecimal_careful (p : Prefixes) (x : Extended) :
    Careful known (roundToDecimal p x : FloatExec H (List Byte)) := by
  have hi : Careful known (do
      raise p Exception.invalid
      return indefiniteDecimal : FloatExec H (List Byte)) :=
    .bind (raise_careful p (by decide)) fun _ => .pure _
  refine .ite hi (.reading fun f _ => ?_)
  obtain ⟨_ | n, inexact⟩ := x.toInt? f.rounding
  · exact .when (raiseAfter_careful p _) (fun _ => hi) hi
  · exact .when (raiseAfter_careful p _) (fun _ => .ite (.pure _) hi) (.ite (.pure _) hi)

variable [Host H]

/-- A store to memory leaves the unit alone, whether it succeeds or not. -/
theorem storeBytes_unstopped (seg : Seg) (offset : Dword) (bytes : List Byte) :
    Unstopped known (storeBytes seg offset bytes : FloatExec H Unit) := by
  intro m hm
  have hfpu := (Exec.storeBytes_hasEffect seg offset bytes).fpu_eq (by decide) m
  change Exec.Ends (Exec.storeBytes seg offset bytes >>= fun _ => pure (some ())) m _ _
  rw [Exec.ends_bind]
  refine hfpu.mono (fun _ m' h => ?_) fun _ m' h => ?_
  · exact ⟨rfl, h.symm ▸ hm, congrArg Fpu.isPending h⟩
  · exact ⟨h.symm ▸ hm, congrArg Fpu.isPending h⟩

/-- Everything that can stop a store of a number comes before the bytes are written. -/
theorem storeReal_final (p : Prefixes) (seg : Seg) (offset : Dword) (format : RealFormat)
    (pops : Bool) : Final known (storeReal p seg offset format pops : FloatExec H Unit) := by
  refine .after (requireFull_careful p 0) fun _ => .reading fun f _ => .reading fun g _ => ?_
  refine .after (raiseStore_careful p _) fun _ => ?_
  exact (storeBytes_unstopped seg offset _).final.thenCommit fun _ => popIf_unstopped pops

theorem storeInt_final (p : Prefixes) (seg : Seg) (offset : Dword) (format : IntFormat)
    (pops : Bool) : Final known (storeInt p seg offset format pops : FloatExec H Unit) := by
  refine .after (requireFull_careful p 0) fun _ => .reading fun f _ => ?_
  refine .after (roundToFormat_careful p format _) fun n => ?_
  exact (storeBytes_unstopped seg offset _).final.thenCommit fun _ => popIf_unstopped pops

/-- The same for a packed decimal, which is popped always. -/
theorem storeDecimal_final (p : Prefixes) (seg : Seg) (offset : Dword) :
    Final known (storeDecimal p seg offset : FloatExec H Unit) := by
  refine .after (requireFull_careful p 0) fun _ => .reading fun f _ => ?_
  refine .after (roundToDecimal_careful p _) fun bytes => ?_
  exact (storeBytes_unstopped seg offset bytes).final.thenCommit fun _ => .update Fpu.settled_pop

end FloatExec

end Ia32
