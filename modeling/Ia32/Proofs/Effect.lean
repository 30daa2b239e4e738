import Ia32.Proofs.Footprint

/-!
# Effects

The effect of a program bounds what it changes: one footprint for an answer, one
for a fault, and one for a refusal, which is a fault that must leave no trace.
The effect of a sequence is computed from the effects of its parts, so that the
bound for an instruction follows from one lemma for each of its steps.

A program that only observes leaves the machine as it is, and may log when it
faults.  The value of such a program can be named without running it in place.
-/

namespace Ia32

open Host

/-! ## Access to segments -/

/-- A segment grants an access to some bytes. -/
structure SegmentCache.Grants (cache : SegmentCache) (s : Processor) (access : Exec.Access)
    (offset : Dword) (len : Nat) : Prop where
  rights : s.usesDescriptors → cache.isNull = false ∧ access.grantedBy cache = true
  bounds : cache.contains offset len = true

variable {H : Type} [Host H]

/-- The stores that a segment grants are permitted. -/
def CoversCache (permits : H → Dword → List Byte → Prop) (s : Processor) (cache : SegmentCache) :
    Prop :=
  ∀ (h : H) (offset : Dword) (bytes : List Byte), cache.Grants s .write offset bytes.length →
    permits h (cache.base + offset) bytes

/-- The stores that the segment registers of a machine grant are permitted. -/
def CoversSegments (permits : H → Dword → List Byte → Prop) (m : Machine H) : Prop :=
  ∀ seg, CoversCache permits m.toProcessor (m.segs.get seg)

theorem CoversCache.of_agree {permits : H → Dword → List Byte → Prop} {m m' : Machine H}
    {S : Footprint} {cache : SegmentCache} (hc : CoversCache permits m.toProcessor cache)
    (ha : Agree permits S m m') : CoversCache permits m'.toProcessor cache := by
  intro h offset bytes hg
  refine hc h offset bytes ⟨fun hu => hg.rights ?_, hg.bounds⟩
  rw [ha.usesDescriptors_eq]
  exact hu

theorem CoversSegments.of_agree {permits : H → Dword → List Byte → Prop} {m m' : Machine H}
    {S : Footprint} (hc : CoversSegments permits m) (ha : Agree permits S m m') :
    CoversSegments permits m' := by
  intro seg
  rw [ha.segs]
  exact (hc seg).of_agree ha

/-! ## Effects -/

/-- What a program may change.  A footprint that is none says that the program does not end in
this way. -/
structure Effect where
  /-- The footprint of an answer. -/
  answer : Footprint
  /-- The footprint of a fault. -/
  fault : Option Footprint
  /-- The footprint of a refusal, on an orderly host. -/
  refusal : Option Footprint
deriving DecidableEq, Repr

namespace Footprint

/-- A footprint, if it is there, is part of another one. -/
def Fits : Option Footprint → Option Footprint → Prop
  | none, _ => True
  | some _, none => False
  | some S, some T => S ⊆ T

instance : (o o' : Option Footprint) → Decidable (Fits o o')
  | none, _ => .isTrue trivial
  | some _, none => .isFalse id
  | some S, some T => inferInstanceAs (Decidable (S ⊆ T))

theorem Fits.exists {o o' : Option Footprint} (h : Fits o o') {S : Footprint} (hS : S ∈ o) :
    ∃ T ∈ o', S ⊆ T := by
  cases o with
  | none => cases hS
  | some S' =>
    cases o' with
    | none => exact h.elim
    | some T => cases hS; exact ⟨T, rfl, h⟩

/-- The footprint of either of two ends. -/
def join : Option Footprint → Option Footprint → Option Footprint
  | none, o => o
  | some S, none => some S
  | some S, some T => some (S ++ T)

theorem fits_join_left (o o' : Option Footprint) : Fits o (join o o') := by
  cases o with
  | none => trivial
  | some S =>
    cases o' with
    | none => exact List.Subset.refl S
    | some T => exact List.subset_append_left S T

theorem fits_join_right (o o' : Option Footprint) : Fits o' (join o o') := by
  cases o' with
  | none => trivial
  | some T =>
    cases o with
    | none => exact List.Subset.refl T
    | some S => exact List.subset_append_right S T

end Footprint

open Footprint

namespace Effect

/-- The effect of a program that changes nothing and does not fault. -/
def silent : Effect := ⟨[], none, none⟩

/-- The effect of a program that may refuse. -/
def checks : Effect := ⟨[], some [], some []⟩

/-- The effect of a program that reads and may fault, but does not refuse. -/
def reads : Effect := ⟨[], some [], none⟩

/-- The effect of a program that changes some parts and does not fault. -/
def changes (S : Footprint) : Effect := ⟨S, none, none⟩

/-- The effect of one store. -/
def writes : Effect := ⟨[.memory], some [.tornMemory], none⟩

/-- One effect after another.  A fault of the second program comes on top of the changes of the
first one. -/
def seq (e e' : Effect) : Effect where
  answer := e.answer ++ e'.answer
  fault := join e.fault (e'.fault.map (e.answer ++ ·))
  refusal := join e.refusal (e'.refusal.map (e.answer ++ ·))

/-- One effect is within another one. -/
structure Within (e e' : Effect) : Prop where
  answer : e.answer ⊆ e'.answer
  fault : Fits e.fault e'.fault
  refusal : Fits e.refusal e'.refusal

instance (e e' : Effect) : Decidable (e.Within e') :=
  decidable_of_iff (e.answer ⊆ e'.answer ∧ Fits e.fault e'.fault ∧ Fits e.refusal e'.refusal)
    ⟨fun h => ⟨h.1, h.2.1, h.2.2⟩, fun h => ⟨h.answer, h.fault, h.refusal⟩⟩

/-- An effect of programs that may fault. -/
class MayFault (e : Effect) : Prop where
  exists_fault : ∃ S, e.fault = some S

/-- An effect of programs that may refuse. -/
class MayRefuse (e : Effect) : Prop extends MayFault e where
  exists_refusal : ∃ S, e.refusal = some S

/-- An effect stays the same when a program of another effect runs first. -/
class Absorbs (e e₁ : Effect) : Prop where
  within : (e₁.seq e).Within e

/-- An effect of programs that change nothing and may fault. -/
class OnlyChecks (e : Effect) : Prop where
  within : e.Within .checks

instance onlyChecks_silent : OnlyChecks silent := ⟨by decide⟩

instance onlyChecks_reads : OnlyChecks reads := ⟨by decide⟩

instance onlyChecks_checks : OnlyChecks checks := ⟨by decide⟩

instance mayFault_mk (S T : Footprint) (U : Option Footprint) : MayFault ⟨S, some T, U⟩ :=
  ⟨⟨T, rfl⟩⟩

instance mayRefuse_mk (S T U : Footprint) : MayRefuse ⟨S, some T, some U⟩ := ⟨⟨U, rfl⟩⟩

instance mayRefuse_checks : MayRefuse checks := mayRefuse_mk [] [] []

instance mayFault_reads : MayFault reads := mayFault_mk [] [] none

instance mayFault_writes : MayFault writes := mayFault_mk [.memory] [.tornMemory] none

instance absorbs_silent (e : Effect) : Absorbs e silent := by
  obtain ⟨S, _ | T, _ | U⟩ := e <;> exact ⟨List.Subset.refl _, by simp [seq, silent, join, Fits],
    by simp [seq, silent, join, Fits]⟩

instance absorbs_reads (e : Effect) [h : MayFault e] : Absorbs e reads := by
  obtain ⟨S, fault, _ | U⟩ := e <;> obtain ⟨T, rfl⟩ := h.exists_fault <;>
    exact ⟨List.Subset.refl _, by simp [seq, reads, join, Fits], by simp [seq, reads, join, Fits]⟩

instance absorbs_checks (e : Effect) [h : MayRefuse e] : Absorbs e checks := by
  obtain ⟨S, fault, refusal⟩ := e
  obtain ⟨T, rfl⟩ := h.exists_fault
  obtain ⟨U, rfl⟩ := h.exists_refusal
  exact ⟨List.Subset.refl _, by simp [seq, checks, join, Fits], by simp [seq, checks, join, Fits]⟩

/-- A fault leaves a machine that the effect allows. -/
structure Faults (e : Effect) (permits : H → Dword → List Byte → Prop) (m : Machine H) (f : Fault)
    (m' : Machine H) : Prop where
  fault : ∃ S ∈ e.fault, Agree permits S m m'
  refusal : f.isRefusal → Orderly H → ∃ S ∈ e.refusal, Agree permits S m m'

theorem Faults.weaken {e e' : Effect} {permits : H → Dword → List Byte → Prop} {m m' : Machine H}
    {f : Fault} (h : e.Faults permits m f m') (hw : e.Within e') : e'.Faults permits m f m' := by
  constructor
  · obtain ⟨S, hS, ha⟩ := h.fault
    obtain ⟨T, hT, hs⟩ := hw.fault.exists hS
    exact ⟨T, hT, ha.mono hs⟩
  · intro hf ho
    obtain ⟨S, hS, ha⟩ := h.refusal hf ho
    obtain ⟨T, hT, hs⟩ := hw.refusal.exists hS
    exact ⟨T, hT, ha.mono hs⟩

/-- A fault after some changes. -/
theorem Faults.after {S : Footprint} {e : Effect} {permits : H → Dword → List Byte → Prop}
    {m m' m'' : Machine H} {f : Fault} (ha : Agree permits S m m')
    (h : e.Faults permits m' f m'') : ((changes S).seq e).Faults permits m f m'' := by
  constructor
  · obtain ⟨T, hT, ha'⟩ := h.fault
    exact ⟨S ++ T, by simpa [seq, changes, join] using hT, ha.append ha'⟩
  · intro hf ho
    obtain ⟨T, hT, ha'⟩ := h.refusal hf ho
    exact ⟨S ++ T, by simpa [seq, changes, join] using hT, ha.append ha'⟩

/-- A fault after nothing but fetches. -/
theorem Faults.of_agree {e : Effect} {permits : H → Dword → List Byte → Prop}
    {m m' m'' : Machine H} {f : Fault} (ha : Agree permits [] m m')
    (h : e.Faults permits m' f m'') : e.Faults permits m f m'' where
  fault := h.fault.imp fun _ hS => ⟨hS.1, ha.append hS.2⟩
  refusal hf ho := (h.refusal hf ho).imp fun _ hS => ⟨hS.1, ha.append hS.2⟩

end Effect

namespace Exec

variable {α β : Type}

/-- A program changes no more than an effect says, on every machine whose segments are
covered. -/
def HasEffect (e : Effect) (x : Exec H α) : Prop :=
  ∀ ⦃permits : H → Dword → List Byte → Prop⦄ ⦃m : Machine H⦄, CoversSegments permits m →
    Ends x m (fun _ m' => Agree permits e.answer m m') (fun f m' => e.Faults permits m f m')

namespace HasEffect

variable {e e₁ e₂ : Effect}

/-! ## Sequences -/

theorem weaken {x : Exec H α} (hx : HasEffect e₁ x) (hw : e₁.Within e) : HasEffect e x :=
  fun _ _ hc => (hx hc).mono (fun _ _ h => h.mono hw.answer) (fun _ _ h => h.weaken hw)

theorem bind {x : Exec H β} {k : β → Exec H α} (hx : HasEffect e₁ x)
    (hk : ∀ b, HasEffect e₂ (k b)) (hw : (e₁.seq e₂).Within e) : HasEffect e (x >>= k) := by
  refine weaken (fun permits m hc => ?_) hw
  rw [ends_bind]
  refine (hx hc).mono (fun b m' ha => ?_) (fun f m' h => ?_)
  · refine (hk b (hc.of_agree ha)).mono (fun _ _ hb => ha.append hb) fun f m'' h => ?_
    exact (h.after ha).weaken ⟨List.Subset.refl _, fits_join_right _ _, fits_join_right _ _⟩
  · exact h.weaken ⟨List.subset_append_left _ _, fits_join_left _ _, fits_join_left _ _⟩

/-- A sequence whose first step adds nothing to the effect of the rest. -/
theorem andThen [he : e.Absorbs e₁] {x : Exec H β} {k : β → Exec H α} (hx : HasEffect e₁ x)
    (hk : ∀ b, HasEffect e (k b)) : HasEffect e (x >>= k) :=
  bind hx hk he.within

/-- A sequence whose first step neither changes anything nor faults. -/
theorem skip {x : Exec H β} {k : β → Exec H α} (hx : HasEffect .silent x)
    (hk : ∀ b, HasEffect e (k b)) : HasEffect e (x >>= k) :=
  andThen hx hk

/-- A program and a function of its answer. -/
theorem map {x : Exec H β} (hx : HasEffect e x) (f : β → α) :
    HasEffect e (x >>= fun b => Pure.pure (f b)) := by
  intro permits m hc
  rw [ends_bind]
  exact hx hc

/-- A step that is taken under a condition, and what follows it in either case. -/
theorem when [e.Absorbs e₁] {c : Prop} [Decidable c] {x : Exec H β} {k : β → Exec H α}
    {y : Exec H α} (hx : HasEffect e₁ x) (hk : ∀ b, HasEffect e (k b)) (hy : HasEffect e y) :
    HasEffect e (if c then x >>= k else y) := by
  split
  · exact andThen hx hk
  · exact hy

theorem ite {c : Prop} [Decidable c] {x y : Exec H α} (hx : HasEffect e x) (hy : HasEffect e y) :
    HasEffect e (if c then x else y) := by
  split
  · exact hx
  · exact hy

/-! ## Single steps -/

theorem pure (a : α) : HasEffect e (Pure.pure a : Exec H α) := fun _ m _ => .refl _ m

theorem view (f : Processor → α) : HasEffect e (Exec.view f : Exec H α) := fun _ m _ => .refl _ m

theorem get : HasEffect e (MonadState.get : Exec H (Machine H)) := fun _ m _ => .refl _ m

theorem note (category : Log.Category) (level : Log.Level) (message : Machine H → String) :
    HasEffect e (Exec.note category level message) := fun _ m _ => .moved _ m m.eip _

/-- A step that moves the instruction pointer. -/
theorem moveEip (f : Processor → Dword) :
    HasEffect e (Exec.update fun s => { s with eip := f s } : Exec H Unit) :=
  fun _ m _ => .moved _ m _ m.log

theorem throw {f : Fault} : HasEffect .checks (MonadExcept.throw f : Exec H α) :=
  fun _ m _ => ⟨⟨[], rfl, .refl _ m⟩, fun _ _ => ⟨[], rfl, .refl _ m⟩⟩

/-- A fault that is no refusal. -/
theorem throwLoud {f : Fault} (hf : f.isRefusal = false) :
    HasEffect .reads (MonadExcept.throw f : Exec H α) :=
  fun _ m _ => ⟨⟨[], rfl, .refl _ m⟩, fun h => by simp [hf] at h⟩

/-- A change of the processor that agrees with a footprint. -/
theorem update {S : Footprint} {f : Processor → Processor}
    (h : ∀ (permits : H → Dword → List Byte → Prop) (m : Machine H),
      Agree permits S m { m with toProcessor := f m.toProcessor }) :
    HasEffect (.changes S) (Exec.update f : Exec H Unit) := fun permits m _ => h permits m

/-- A change of the processor that also gives an answer. -/
theorem updateWith {S : Footprint} {f : Processor → α × Processor}
    (h : ∀ (permits : H → Dword → List Byte → Prop) (m : Machine H),
      Agree permits S m { m with toProcessor := (f m.toProcessor).2 }) :
    HasEffect (.changes S) (Exec.updateWith f : Exec H α) := fun permits m _ => h permits m

end HasEffect

/-! ## Observation -/

/-- A program leaves the machine as it is.  It may log something when it faults, and on an
orderly host it does not refuse. -/
def Observes (x : Exec H α) : Prop :=
  ∀ m : Machine H, Ends x m (fun _ m' => m' = m)
    (fun f m' => (∃ log, m' = { m with log := log }) ∧ (Orderly H → f.isRefusal = false))

/-- A program leaves a machine as it is, and its answer there has a property. -/
def Finds (x : Exec H α) (m : Machine H) (P : α → Prop) : Prop :=
  Ends x m (fun a m' => m' = m ∧ P a)
    (fun f m' => (∃ log, m' = { m with log := log }) ∧ (Orderly H → f.isRefusal = false))

/-- Faults that leave a machine as it is are allowed, unless they are refusals. -/
def AllowsFaults (err : Fault → Machine H → Prop) (m : Machine H) : Prop :=
  ∀ f log, (Orderly H → f.isRefusal = false) → err f { m with log := log }

namespace Finds

variable {m : Machine H} {ok : α → Machine H → Prop} {err : Fault → Machine H → Prop}

/-- What follows a find runs on the same machine. -/
theorem bind {x : Exec H β} {k : β → Exec H α} {P : β → Prop} (hx : Finds x m P)
    (he : AllowsFaults err m) (hk : ∀ b, P b → Ends (k b) m ok err) : Ends (x >>= k) m ok err := by
  rw [ends_bind]
  refine Ends.mono hx ?_ ?_
  · rintro b m' ⟨rfl, hp⟩
    exact hk b hp
  · rintro f m' ⟨⟨log, rfl⟩, hf⟩
    exact he f log hf

theorem allows (m : Machine H) : AllowsFaults (fun f m' =>
    (∃ log, m' = { m with log := log }) ∧ (Orderly H → f.isRefusal = false)) m :=
  fun _ log hf => ⟨⟨log, rfl⟩, hf⟩

end Finds

/-- A guard that faults, and what follows it. -/
theorem ends_guard {m : Machine H} {ok : α → Machine H → Prop} {err : Fault → Machine H → Prop}
    {c : Prop} [Decidable c] {f : Fault} {k : β → Exec H α} {y : Exec H α} (he : AllowsFaults err m)
    (hf : f.isRefusal = false) (hy : ¬c → Ends y m ok err) :
    Ends (if c then throw f >>= k else y) m ok err := by
  split
  · exact he f m.log fun _ => hf
  next h => exact hy h

namespace Observes

variable {m : Machine H} {ok : α → Machine H → Prop} {err : Fault → Machine H → Prop}

theorem pure (a : α) : Observes (Pure.pure a : Exec H α) := fun _ => rfl

theorem view (f : Processor → α) : Observes (Exec.view f : Exec H α) := fun _ => rfl

theorem get : Observes (MonadState.get : Exec H (Machine H)) := fun _ => rfl

theorem throw {f : Fault} (hf : f.isRefusal = false) :
    Observes (MonadExcept.throw f : Exec H α) := fun m => ⟨⟨m.log, rfl⟩, fun _ => hf⟩

theorem ite {c : Prop} [Decidable c] {x y : Exec H α} (hx : Observes x) (hy : Observes y) :
    Observes (if c then x else y) := by
  split
  · exact hx
  · exact hy

/-- An observation finds the value that it has. -/
theorem finds {x : Exec H α} (hx : Observes x) (m : Machine H) :
    Finds x m (fun a => value? x m = some a) := by
  refine (hx m).value.mono ?_ fun _ _ h => h
  rintro a m' ⟨hv, rfl⟩
  exact ⟨rfl, hv⟩

theorem run_of_value {x : Exec H α} (hx : Observes x) {a : α} (hv : value? x m = some a) :
    x.run m = .ok a m := by
  obtain ⟨m', hrun⟩ := value?_eq_some_iff.1 hv
  have hsame := hx m
  simp only [Ends, hrun] at hsame
  rw [hrun, hsame]

theorem bind {x : Exec H β} {k : β → Exec H α} (hx : Observes x) (hk : ∀ b, Observes (k b)) :
    Observes (x >>= k) :=
  fun m => (hx.finds m).bind (Finds.allows m) fun b _ => hk b m

/-- The value of a sequence of observations. -/
theorem value_bind {x : Exec H β} (hx : Observes x) (k : β → Exec H α) (m : Machine H) :
    value? (x >>= k) m = (value? x m).bind fun b => value? (k b) m := by
  have h := hx m
  simp only [Ends, value?, EStateM.run, Bind.bind, EStateM.bind] at h ⊢
  cases hm : x m with
  | ok b m' =>
    simp only [hm] at h
    subst h
    rfl
  | error f m' => rfl

theorem hasEffect {x : Exec H α} (hx : Observes x) : HasEffect .reads x := by
  intro permits m _
  refine (hx m).mono ?_ ?_
  · rintro _ m' rfl
    exact .refl _ m'
  · rintro f m' ⟨⟨log, rfl⟩, hf⟩
    exact ⟨⟨[], rfl, .moved _ m m.eip log⟩, fun hr ho => by simp [hf ho] at hr⟩

end Observes

end Exec

end Ia32
