import Ia32.Proofs.BackedMemory
import Ia32.Proofs.FloatEffects

/-!
# Accesses to segments

An access names a segment, the offset where it starts and a number of bytes, and the
segment grants or denies it as a whole.  `Exec.Accesses L x` says which accesses the
program `x` makes: when it has an answer, those accesses of the list `L` that are
certain were granted, and when it ends in a fault of a segment, one of the list was
denied.  So an access that is not in the list never stops the program.

The list of a sequence comes from the lists of its parts.  A program without accesses
is quiet.
-/

namespace Ia32

open Host

/-! ## Faults of segments -/

/-- Whether a fault is one that the check of an access raises. -/
def Fault.isSegmentFault : Fault → Bool
  | .stackFault _ | .generalProtection _ => true
  | _ => false

/-- A host whose faults are not those of segments.  It knows linear addresses alone. -/
structure Host.Unsegmented (H : Type) [Host H] : Prop where
  read : ∀ {h : H} {linear f}, Host.read h linear = .error f → f.isSegmentFault = false
  range : ∀ {h : H} {linear n f}, Host.checkRange h linear n = some f → f.isSegmentFault = false
  store : ∀ {h : H} {linear f}, Host.storeFault h linear = some f → f.isSegmentFault = false

theorem Ram.unsegmented : Unsegmented Ram where
  read h := by
    simp only [Host.read] at h
    split at h
    · cases h; rfl
    · cases h
  range h := by
    simp only [Host.checkRange] at h
    split at h
    · split at h
      · cases h; rfl
      · cases h
    · cases h
  store h := by
    simp only [Host.storeFault] at h
    split at h
    · cases h; rfl
    · cases h

/-! ## Accesses -/

/-- An access to some bytes of a segment. -/
structure SegmentAccess where
  /-- What it does. -/
  access : Exec.Access
  /-- The segment register. -/
  seg : Seg
  /-- The offset of the first byte. -/
  start : Dword
  /-- The number of bytes. -/
  len : Nat
  /-- Whether it is made in any case, unless a fault comes first. -/
  certain : Bool
deriving DecidableEq, Repr

/-- The segment grants the access. -/
def SegmentAccess.Granted (a : SegmentAccess) (s : Processor) : Prop :=
  (s.segs.get a.seg).Grants s a.access a.start a.len

/-- Two processors agree in what decides about accesses. -/
structure Processor.SameSegments (s s' : Processor) : Prop where
  segs : s'.segs = s.segs
  usesDescriptors : s'.usesDescriptors = s.usesDescriptors

namespace Processor.SameSegments

variable {s s' s'' : Processor}

theorem refl (s : Processor) : s.SameSegments s := ⟨rfl, rfl⟩

theorem trans (h : s.SameSegments s') (h' : s'.SameSegments s'') : s.SameSegments s'' :=
  ⟨h'.segs.trans h.segs, h'.usesDescriptors.trans h.usesDescriptors⟩

/-- Whether an access is granted depends on the segments only. -/
theorem granted_iff (h : s.SameSegments s') (a : SegmentAccess) : a.Granted s' ↔ a.Granted s := by
  unfold SegmentAccess.Granted
  rw [h.segs]
  exact ⟨fun hg => ⟨fun hu => hg.rights (h.usesDescriptors.trans hu), hg.bounds⟩,
    fun hg => ⟨fun hu => hg.rights (h.usesDescriptors.symm.trans hu), hg.bounds⟩⟩

theorem address32_eq (h : s.SameSegments s') (p : Prefixes) : p.address32 s' = p.address32 s := by
  rw [Prefixes.address32, Prefixes.address32, h.segs]

end Processor.SameSegments

variable {H : Type}

theorem Agree.sameSegments [Host H] {permits : H → Dword → List Byte → Prop} {S : Footprint}
    {m m' : Machine H} (h : Agree permits S m m') : m.SameSegments m'.toProcessor :=
  ⟨h.segs, h.usesDescriptors_eq⟩

/-- No effect is one on the segments, so that a program with effects leaves them as they are. -/
theorem Exec.HasEffect.sameSegments [Host H] {α : Type} {e : Effect} {x : Exec H α}
    (hx : HasEffect e x) {m m' : Machine H} {a : α} (hr : x.run m = .ok a m') :
    m.SameSegments m'.toProcessor := by
  have hall : CoversSegments (fun _ _ _ => True) m := fun _ _ _ _ _ => trivial
  exact ((hx hall).of_ok hr).sameSegments

namespace Exec

variable {α β : Type} {L L' : List SegmentAccess} {a : SegmentAccess} {e : Effect}

/-- A program makes the accesses of a list when it runs on a machine. -/
def AccessesAt (m : Machine H) (L : List SegmentAccess) (x : Exec H α) : Prop :=
  Ends x m
    (fun _ m' => m.SameSegments m'.toProcessor ∧ ∀ a ∈ L, a.certain → a.Granted m.toProcessor)
    (fun f _ => f.isSegmentFault → ∃ a ∈ L, ¬a.Granted m.toProcessor)

/-- A program makes the accesses of a list, whatever machine it runs on. -/
def Accesses (L : List SegmentAccess) (x : Exec H α) : Prop := ∀ m : Machine H, AccessesAt m L x

/-- The accesses of a program are decided on by every machine with the same segments. -/
theorem AccessesAt.ends_sameSegments {m m₁ : Machine H} {x : Exec H α}
    (hs : m.SameSegments m₁.toProcessor) (hx : AccessesAt m₁ L x) :
    Ends x m₁
      (fun _ m' => m.SameSegments m'.toProcessor ∧ ∀ a ∈ L, a.certain → a.Granted m.toProcessor)
      (fun f _ => f.isSegmentFault → ∃ a ∈ L, ¬a.Granted m.toProcessor) := by
  refine Ends.mono hx (fun _ _ h => ⟨hs.trans h.1, fun a ha hc => ?_⟩) fun f _ hf h => ?_
  · exact (hs.granted_iff a).1 (h.2 a ha hc)
  · obtain ⟨a, ha, hn⟩ := hf h
    exact ⟨a, ha, fun hg => hn ((hs.granted_iff a).2 hg)⟩

/-- A sequence makes the accesses of its parts. -/
theorem AccessesAt.bind {m : Machine H} {x : Exec H β} {k : β → Exec H α}
    (hx : AccessesAt m L x) (hk : ∀ b m₁, x.run m = .ok b m₁ → AccessesAt m₁ L' (k b)) :
    AccessesAt m (L ++ L') (x >>= k) := by
  rw [AccessesAt, ends_bind]
  unfold Ends
  cases hr : x.run m with
  | ok b m₁ =>
    obtain ⟨hs, hgranted⟩ := Ends.of_ok hx hr
    refine ((hk b m₁ hr).ends_sameSegments hs).mono (fun _ _ h => ⟨h.1, fun a ha hc => ?_⟩)
      fun f _ hf h => ?_
    · rcases List.mem_append.1 ha with ha | ha
      · exact hgranted a ha hc
      · exact h.2 a ha hc
    · obtain ⟨a, ha, hn⟩ := hf h
      exact ⟨a, List.mem_append_right L ha, hn⟩
  | error f m₁ =>
    intro h
    obtain ⟨a, ha, hn⟩ := Ends.of_error hx hr h
    exact ⟨a, List.mem_append_left L' ha, hn⟩

/-- What follows a program that makes no access. -/
theorem AccessesAt.after {m : Machine H} {x : Exec H β} {k : β → Exec H α}
    (hx : AccessesAt m [] x) (hk : ∀ b m₁, x.run m = .ok b m₁ → AccessesAt m₁ L (k b)) :
    AccessesAt m L (x >>= k) := bind hx hk

/-- What follows a program that has run. -/
theorem AccessesAt.of_run {m m₁ : Machine H} {x : Exec H β} {b : β} {k : β → Exec H α}
    (hx : x.run m = .ok b m₁) (hs : m.SameSegments m₁.toProcessor) (hk : AccessesAt m₁ L (k b)) :
    AccessesAt m L (x >>= k) :=
  Ends.of_run hx (hk.ends_sameSegments hs)

/-- A program makes no access. -/
abbrev Quiet (x : Exec H α) : Prop := Accesses [] x

/-- Some accesses, and then nothing but quiet programs. -/
theorem AccessesAt.andThen {m : Machine H} {x : Exec H β} {k : β → Exec H α}
    (hx : AccessesAt m L x) (hk : ∀ b, Quiet (k b)) : AccessesAt m L (x >>= k) :=
  L.append_nil ▸ .bind hx fun b m₁ _ => hk b m₁

theorem AccessesAt.ite {m : Machine H} {c : Prop} [Decidable c] {x y : Exec H α}
    (hx : AccessesAt m L x) (hy : AccessesAt m L y) : AccessesAt m L (if c then x else y) := by
  split
  · exact hx
  · exact hy

/-- The stack pointer has no part in accesses. -/
theorem AccessesAt.keepingStack {m : Machine H} {x : Exec H α} (hx : AccessesAt m L x) :
    AccessesAt m L (keepingStack x) := by
  rw [AccessesAt, Exec.keepingStack, ends_bind, ends_view, ends_tryCatch]
  exact Ends.mono hx (fun _ _ h => h) fun _ _ h => h

namespace Accesses

/-! ## Single steps -/

theorem pure (a : α) : Quiet (Pure.pure a : Exec H α) := fun m => ⟨.refl m.toProcessor, nofun⟩

theorem get : Quiet (MonadState.get : Exec H (Machine H)) := fun m => ⟨.refl m.toProcessor, nofun⟩

theorem view (f : Processor → α) : Quiet (Exec.view f : Exec H α) :=
  fun m => ⟨.refl m.toProcessor, nofun⟩

theorem note (category : Log.Category) (level : Log.Level) (message : Machine H → String) :
    Quiet (Exec.note category level message) := fun m => ⟨.refl m.toProcessor, nofun⟩

/-- A program that faults for another reason. -/
theorem throw {f : Fault} (hf : f.isSegmentFault = false) :
    Accesses L (MonadExcept.throw f : Exec H α) := fun _ h => absurd h (by simp [hf])

theorem throwThen {f : Fault} (hf : f.isSegmentFault = false) {k : β → Exec H α} :
    Accesses L (MonadExcept.throw f >>= k : Exec H α) := fun _ h => absurd h (by simp [hf])

/-- A program that does not fault. -/
theorem of_hasEffect [Host H] {x : Exec H α} (hx : HasEffect e x) (he : e.fault = none) :
    Quiet x := by
  have hall (m : Machine H) : CoversSegments (fun _ _ _ => True) m := fun _ _ _ _ _ => trivial
  refine fun m => (hx (hall m)).mono (fun _ m' h => ⟨h.sameSegments, nofun⟩) fun f m' h => ?_
  obtain ⟨S, hS, -⟩ := h.fault
  cases he.symm.trans hS

/-! ## Sequences -/

/-- What follows a quiet program whose answers have a property. -/
theorem after_gives {x : Exec H β} {k : β → Exec H α} {P : β → Prop} (hx : Quiet x)
    (hP : ∀ m : Machine H, Ends x m (fun b _ => P b) fun _ _ => True)
    (hk : ∀ b, P b → Accesses L (k b)) : Accesses L (x >>= k) :=
  fun m => .after (hx m) fun b m₁ hr => hk b ((hP m).of_ok hr) m₁

/-- What comes before the accesses asks for no memory. -/
theorem after {x : Exec H β} {k : β → Exec H α} (hx : Quiet x) (hk : ∀ b, Accesses L (k b)) :
    Accesses L (x >>= k) :=
  after_gives hx (Ends.always x) fun b _ => hk b

/-- An access, and then others. -/
theorem cons {x : Exec H β} {k : β → Exec H α} (hx : Accesses [a] x)
    (hk : ∀ b, Accesses L (k b)) : Accesses (a :: L) (x >>= k) :=
  fun m => .bind (hx m) fun b m₁ _ => hk b m₁

/-- What follows the accesses asks for no memory. -/
theorem andThen {x : Exec H β} {k : β → Exec H α} (hx : Accesses L x) (hk : ∀ b, Quiet (k b)) :
    Accesses L (x >>= k) := fun m => .andThen (hx m) hk

theorem ite {c : Prop} [Decidable c] {x y : Exec H α} (hx : Accesses L x) (hy : Accesses L y) :
    Accesses L (if c then x else y) := fun m => .ite (hx m) (hy m)

/-- An access that is not certain need not be made. -/
theorem of_quiet {x : Exec H α} (hx : Quiet x) (hL : ∀ a ∈ L, a.certain = false) :
    Accesses L x := by
  refine fun m => Ends.mono (hx m) (fun _ _ h => ⟨h.1, fun a ha hc => ?_⟩) fun f _ hf h => ?_
  · cases (hL a ha).symm.trans hc
  · obtain ⟨_, ha, -⟩ := hf h
    cases ha

end Accesses

/-! ## Checks, loads and stores -/

theorem checkLock_quiet (p : Prefixes) : Quiet (checkLock p : Exec H Unit) :=
  .ite (.throw rfl) (.pure ())

/-- An access that is not granted does not pass the check. -/
theorem linearOf_accesses (access : Access) (seg : Seg) (offset : Dword) (len : Nat)
    (certain : Bool) :
    Accesses [⟨access, seg, offset, len, certain⟩] (linearOf seg offset len access : Exec H Dword) := by
  intro m
  have hends := linearOf_ends seg offset len access m
  unfold AccessesAt Ends at *
  cases hr : (linearOf seg offset len access).run m with
  | ok linear m' =>
    simp only [hr] at hends
    obtain ⟨rfl, -, hg⟩ := hends
    exact ⟨.refl m'.toProcessor, List.forall_mem_singleton.2 fun _ => hg⟩
  | error f m' =>
    refine fun _ => ⟨_, List.mem_singleton_self _, fun hg => ?_⟩
    cases hr.symm.trans (linearOf_of_grants hg)

variable [Host H]

section

variable (hH : Unsegmented H)

include hH

/-- The hosts here refuse no access with a fault of a segment. -/
theorem readLinear_quiet (linear : Dword) (n : Nat) :
    Quiet (readLinear linear n : Exec H (List Byte)) := by
  refine .after .get fun m => ?_
  split
  next => exact .pure _
  next f he =>
    obtain ⟨address, hr⟩ := exists_read_of_hostBytes he
    exact .throw (hH.read hr)

omit [Host H] hH in
theorem raiseIf_quiet {fault? : Option Fault} (hf : ∀ f ∈ fault?, f.isSegmentFault = false) :
    Quiet (raiseIf fault? : Exec H Unit) := by
  cases fault? with
  | none => exact .pure ()
  | some f => exact .throw (hf f rfl)

theorem storeEach_quiet (linear : Dword) (bytes : List Byte) :
    Quiet (storeEach linear bytes : Exec H Unit) := by
  induction bytes generalizing linear with
  | nil => exact .pure ()
  | cons b bs ih =>
    have hstore : Quiet (modify fun m => { m with host := Host.store m.host linear b } :
        Exec H PUnit) := fun m => ⟨.refl m.toProcessor, nofun⟩
    refine .after .get fun m => .after (raiseIf_quiet fun f hf => hH.store hf) fun _ => ?_
    exact .after hstore fun _ => ih (linear + 1)

theorem writeLinear_quiet (linear : Dword) (bytes : List Byte) :
    Quiet (writeLinear linear bytes : Exec H Unit) := by
  refine .after .get fun m => .after (raiseIf_quiet fun f hf => hH.range hf) fun _ => ?_
  exact storeEach_quiet hH linear bytes

theorem loadBytes_accesses (seg : Seg) (offset : Dword) (n : Nat) :
    Accesses [⟨.read, seg, offset, n, true⟩] (loadBytes seg offset n : Exec H (List Byte)) :=
  .andThen (linearOf_accesses .read seg offset n true) fun linear => readLinear_quiet hH linear n

theorem load_accesses (w : Width) (seg : Seg) (offset : Dword) :
    Accesses [⟨.read, seg, offset, w.bytes, true⟩] (load w seg offset : Exec H Dword) :=
  .andThen (loadBytes_accesses hH seg offset w.bytes) fun _ => .pure _

/-- A store asks for all its bytes at once, as one access of their number. -/
theorem storeBytes_accesses (certain : Bool) (seg : Seg) (offset : Dword) {bytes : List Byte}
    {n : Nat} (hn : bytes.length = n) :
    Accesses [⟨.write, seg, offset, n, certain⟩] (storeBytes seg offset bytes : Exec H Unit) := by
  subst hn
  exact .andThen (linearOf_accesses .write seg offset bytes.length certain) fun linear =>
    writeLinear_quiet hH linear bytes

theorem store_accesses (certain : Bool) (w : Width) (seg : Seg) (offset value : Dword) :
    Accesses [⟨.write, seg, offset, w.bytes, certain⟩] (store w seg offset value : Exec H Unit) :=
  storeBytes_accesses hH certain seg offset (length_bytesOf _ _)

end

end Exec

end Ia32
