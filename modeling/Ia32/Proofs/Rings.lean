import Ia32.Proofs.PrivilegeLevels

/-!
# Rings

In protected mode the segment registers match the privilege level: the stack
belongs to the level, and no data segment of a more privileged level can be used.
Most instructions leave the segment registers alone.  A call to a more privileged
level brings its own stack, and every data segment that could be used before can
be used at the new level too.  A return to a less privileged level clears the data
segments that may no longer be used.
-/

namespace Ia32

open Host Exec

/-! ## The invariant -/

/-- The segment registers that hold data and can be loaded with any level. -/
def Seg.dataSegments : List Seg := [.es, .fs, .gs, .ds]

/-- A data segment may stay loaded at a level. -/
def SegmentCache.FitsLevel (cache : SegmentCache) (level : Byte) : Prop :=
  cache.isNull = true ∨ cache.dataOrNonconforming = false ∨ level ≤ cache.dpl

instance (cache : SegmentCache) (level : Byte) : Decidable (cache.FitsLevel level) :=
  inferInstanceAs (Decidable (_ ∨ _ ∨ _))

/-- The segment registers match the level of the code segment. -/
structure Segments.MatchLevel (s : Segments) : Prop where
  bound : s.cs.pl ≤ 3
  requested : s.cs.selector &&& 3 = s.cs.pl.setWidth 16
  stackLoaded : s.ss.isNull = false
  stackWritable : s.ss.writable = true
  stackRequested : s.ss.pl = s.cs.pl
  stackLevel : s.ss.dpl = s.cs.pl
  data : ∀ seg ∈ Seg.dataSegments, (s.get seg).FitsLevel s.cs.pl

/-- A processor in protected mode whose segment registers match its level. -/
structure RingConsistent (s : Processor) : Prop where
  mode : s.usesDescriptors = true
  segments : s.segs.MatchLevel

/-! ## Loading segments -/

theorem SegmentCache.FitsLevel.mono {cache : SegmentCache} {level level' : Byte}
    (h : cache.FitsLevel level) (hl : level' ≤ level) : cache.FitsLevel level' :=
  h.imp_right (.imp_right (BitVec.le_trans hl))

/-- What stays after a return fits. -/
theorem SegmentCache.fitsLevel_afterReturnTo (cache : SegmentCache) (level : Byte) :
    (cache.afterReturnTo level).FitsLevel level := by
  unfold afterReturnTo
  split
  next => exact .inl rfl
  next h =>
    cases hd : cache.dataOrNonconforming with
    | false => exact .inr (.inl hd)
    | true =>
      simp only [hd, Bool.and_true, decide_eq_true_eq, BitVec.not_lt] at h
      exact .inr (.inr h)

/-- The level in a selector stands in its last two bits. -/
theorem and_three_eq_requestedLevel (selector : Word) :
    selector &&& 3 = (requestedLevel selector).setWidth 16 := by
  have hlow : ∀ i < 16, (3#16).getLsbD i = true → i < 8 := by decide
  apply BitVec.eq_of_getLsbD_eq
  intro i hi
  cases hb : (3#16).getLsbD i with
  | false => simp [requestedLevel, hb]
  | true => simp [requestedLevel, hi, hlow i hi hb]

theorem Seg.ne_of_mem_dataSegments {seg : Seg} (h : seg ∈ dataSegments) : seg ≠ .cs ∧ seg ≠ .ss := by
  constructor <;> rintro rfl <;> revert h <;> decide

namespace Segments.MatchLevel

variable {s : Segments}

/-- Code of the same level may be loaded. -/
theorem setCode (h : s.MatchLevel) {selector : Word} (target : Descriptor)
    (hl : requestedLevel selector = s.cs.pl) :
    (s.set .cs (.ofDescriptor selector target)).MatchLevel where
  bound := requestedLevel_le selector
  requested := and_three_eq_requestedLevel selector
  stackLoaded := h.stackLoaded
  stackWritable := h.stackWritable
  stackRequested := h.stackRequested.trans hl.symm
  stackLevel := h.stackLevel.trans hl.symm
  data seg hseg := by
    rw [get_set_of_ne _ _ (Seg.ne_of_mem_dataSegments hseg).1]
    exact (h.data seg hseg).mono (BitVec.le_of_eq hl)

/-- Code of a more privileged level may be loaded together with its stack. -/
theorem setInner {v : FarView} (h : s.MatchLevel) {selector place : Word}
    {target stack : Descriptor} (hl : requestedLevel selector ≤ s.cs.pl)
    (hs : StackAt v (requestedLevel selector) place stack) :
    ((s.set .ss (.ofDescriptor place stack)).set .cs (.ofDescriptor selector target)).MatchLevel where
  bound := requestedLevel_le selector
  requested := and_three_eq_requestedLevel selector
  stackLoaded := rfl
  stackWritable := hs.writable
  stackRequested := hs.requested
  stackLevel := hs.level
  data seg hseg := by
    rw [get_set_of_ne _ _ (Seg.ne_of_mem_dataSegments hseg).1,
      get_set_of_ne _ _ (Seg.ne_of_mem_dataSegments hseg).2]
    exact (h.data seg hseg).mono hl

end Segments.MatchLevel

/-- Code of any level may be loaded together with its stack, when the data segments are cleared. -/
theorem Segments.matchLevel_afterReturnTo {v : FarView} (s : Segments) {selector place : Word}
    {target stack : Descriptor} (hs : StackAt v (requestedLevel selector) place stack) :
    (((s.set .cs (.ofDescriptor selector target)).set .ss
      (.ofDescriptor place stack)).afterReturnTo (requestedLevel selector)).MatchLevel where
  bound := requestedLevel_le selector
  requested := and_three_eq_requestedLevel selector
  stackLoaded := rfl
  stackWritable := hs.writable
  stackRequested := hs.requested
  stackLevel := hs.level
  data seg hseg := by
    cases seg with
    | cs => exact absurd rfl (Seg.ne_of_mem_dataSegments hseg).1
    | ss => exact absurd rfl (Seg.ne_of_mem_dataSegments hseg).2
    | _ => exact SegmentCache.fitsLevel_afterReturnTo _ _

/-! ## Steps -/

variable {H : Type} [Host H] {permits : H → Dword → List Byte → Prop} {m m' : Machine H}

theorem CompletesFar.matchLevel {far : FarInstruction} (h : CompletesFar permits m far m')
    (hm : RingConsistent m.toProcessor) : m'.segs.MatchLevel := by
  have hcpl : m.cpl = m.segs.cs.pl := Processor.cpl_of_usesDescriptors hm.mode
  have hbound : m.cpl ≤ 3 := hcpl ▸ hm.segments.bound
  cases h with
  | direct _ hload =>
    rw [hload.segs]
    exact hm.segments.setCode _ ((requestedLevel_withLevel hbound _).trans hcpl)
  | gate _ hload =>
    rw [hload.segs]
    exact hm.segments.setCode _ ((requestedLevel_withLevel hbound _).trans hcpl)
  | @inner w dest gate target stack place m' hcall hload =>
    have hlevel := requestedLevel_withLevel target.dpl_le gate.gateSelector
    rw [hload.segs]
    refine hm.segments.setInner ?_ (hlevel.symm ▸ hcall.stackAt)
    rw [hlevel, ← hcpl]
    exact hcall.targetLevel
  | same _ hl hload =>
    rw [hload.segs]
    exact hm.segments.setCode _ (hl.trans hcpl)
  | outer hreturn hload =>
    rw [hload.segs]
    exact m.segs.matchLevel_afterReturnTo hreturn.stackAt

theorem CompletesFar.usesDescriptors_eq {far : FarInstruction} (h : CompletesFar permits m far m') :
    m'.usesDescriptors = m.usesDescriptors := by
  cases h with
  | direct _ hload => exact hload.usesDescriptors_eq
  | gate _ hload => exact hload.usesDescriptors_eq
  | inner _ hload => exact hload.usesDescriptors_eq
  | same _ _ hload => exact hload.usesDescriptors_eq
  | outer _ hload => exact hload.usesDescriptors_eq

/-- A step keeps the segment registers in line with the level, however it ends. -/
theorem RingConsistent.step (h : RingConsistent m.toProcessor) :
    RingConsistent m.step.2.toProcessor := by
  obtain ⟨m₁, eip, log, retired, hm, hcases⟩ := Machine.step_cases (.of_all m) h.mode
  rw [hm]
  rcases hcases with ⟨S, ha⟩ | ⟨far, -, hc⟩
  · exact ⟨ha.usesDescriptors_eq.trans h.mode, ha.segs.symm ▸ h.segments⟩
  · exact ⟨hc.usesDescriptors_eq.trans h.mode, hc.matchLevel h⟩

/-! ## Runs -/

/-- A machine comes out of another one by steps, however each of them ends. -/
inductive Machine.Runs : Machine H → Machine H → Prop where
  | refl (m : Machine H) : Runs m m
  | step {m m' : Machine H} :
    Runs m.step.2 m' →
    Runs m m'

/-- A run that stops at the first fault is made of steps. -/
theorem Machine.runs_run (count : Nat) (m : Machine H) : Runs m (m.run count).2 := by
  induction count generalizing m with
  | zero => exact .refl m
  | succ count ih =>
    unfold run
    split
    next m' hs =>
      have hr : Runs m.step.2 (run count m').2 := by rw [hs]; exact ih m'
      exact .step hr
    next last m' _ hs =>
      have hr : Runs m.step.2 m' := by rw [hs]; exact .refl m'
      exact .step hr

omit [Host H] in
/-- No access goes through a data segment of a more privileged level. -/
theorem RingConsistent.linearOf_eq_none (h : RingConsistent m.toProcessor) {seg : Seg}
    (hseg : seg ∈ Seg.dataSegments) (hdata : (m.segs.get seg).dataOrNonconforming = true)
    (hlevel : (m.segs.get seg).dpl < m.cpl) (offset : Dword) (len : Nat) (access : Access) :
    value? (linearOf seg offset len access) m = none := by
  refine Option.eq_none_iff_forall_ne_some.mpr fun linear hv => ?_
  obtain ⟨_, -, -, hgrants⟩ := (linearOf_ends seg offset len access m).of_value hv
  have hloaded := (hgrants.rights h.mode).1
  rcases h.segments.data seg hseg with hnull | hcode | hfits
  · simp [hloaded] at hnull
  · simp [hdata] at hcode
  · rw [Processor.cpl_of_usesDescriptors h.mode] at hlevel
    exact absurd hfits (BitVec.not_le.mpr hlevel)

/-- Over any run the segment registers match the level, and no data segment of a more privileged
level can be used. -/
theorem ringConsistent_of_runs (h : RingConsistent m.toProcessor) (hr : m.Runs m') :
    RingConsistent m'.toProcessor ∧
      ∀ seg ∈ Seg.dataSegments, (m'.segs.get seg).dataOrNonconforming = true →
        (m'.segs.get seg).dpl < m'.cpl → ∀ offset len access,
          value? (linearOf seg offset len access) m' = none := by
  have hm' : RingConsistent m'.toProcessor := by
    induction hr with
    | refl => exact h
    | step _ ih => exact ih h.step
  exact ⟨hm', fun seg hseg hdata hlevel => hm'.linearOf_eq_none hseg hdata hlevel⟩

/-- The call through the gate starts and ends in line with the level. -/
theorem ringConsistent_atGate :
    RingConsistent Machine.atGate.toProcessor ∧ Machine.atGate.Runs Machine.atGate.step.2 ∧
      RingConsistent Machine.atGate.step.2.toProcessor := by
  have hgate : RingConsistent Machine.atGate.toProcessor :=
    ⟨by decide, by decide, by decide, by decide, by decide, by decide, by decide, by decide⟩
  exact ⟨hgate, .step (.refl _), (ringConsistent_of_runs hgate (.step (.refl _))).1⟩

end Ia32
