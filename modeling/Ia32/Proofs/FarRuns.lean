import Ia32.Proofs.StepRuns

/-!
# Runs of far instructions

A step at a far instruction takes its operands from the code and then runs the
transfer or the return.  A return that releases bytes of the stack releases them
when it is done; one that does not releases none, which changes nothing.
-/

namespace Ia32

open Host Exec

variable {H : Type} [Host H] {m m₁ m₂ : Machine H} {p : Prefixes} {i : Instruction}
  {far : FarInstruction}

/-! ## The stack pointer -/

/-- A double word is made of its halves. -/
theorem high_or_low (x : Dword) : (x &&& 0xFFFF0000) ||| (x &&& 0xFFFF) = x := by
  rw [← BitVec.and_or_distrib_left]
  exact BitVec.and_allOnes

theorem and_lowWord_idem (x : Dword) : x &&& 0xFFFF &&& 0xFFFF = x &&& 0xFFFF := by
  rw [BitVec.and_assoc, BitVec.and_self]

namespace Processor

variable (s : Processor)

theorem wrapStack_idem (offset : Dword) : s.wrapStack (s.wrapStack offset) = s.wrapStack offset := by
  unfold wrapStack
  split
  · rfl
  · exact and_lowWord_idem offset

/-- The stack pointer is what it is set to, cut to its width. -/
theorem sp_setSp (value : Dword) : (s.setSp value).sp = s.wrapStack value := by
  have hget (x : Dword) : (s.regs.set Reg.esp x).get Reg.esp = x :=
    Vector.getElem_set_self Reg.esp.isLt
  unfold setSp
  cases h32 : s.stack32 with
  | true => exact congrArg s.wrapStack (hget value)
  | false =>
    refine (congrArg s.wrapStack (hget _)).trans ?_
    have hhalves : (0xFFFF0000 : Dword) &&& 0xFFFF = 0 := by decide
    have hlow (x : Dword) :
        ((x &&& 0xFFFF0000) ||| (value &&& 0xFFFF)) &&& 0xFFFF = value &&& 0xFFFF := by
      rw [BitVec.and_or_distrib_right, and_lowWord_idem, BitVec.and_assoc, hhalves]
      simp
    rw [wrapStack, wrapStack, h32]
    exact hlow _

/-- The stack pointer is what it was when it is set to itself. -/
theorem setSp_sp : s.setSp s.sp = s := by
  have hset (value : Dword) (hv : value = s.regs.get Reg.esp) :
      { s with regs := s.regs.set Reg.esp value } = s := by
    have hregs : s.regs.set Reg.esp value = s.regs := by rw [hv]; exact Vector.set_getElem_self _
    rw [hregs]
  unfold setSp sp wrapStack
  cases s.stack32 with
  | true => exact hset _ rfl
  | false =>
    refine hset _ ?_
    change (_ &&& 0xFFFF0000) ||| (_ &&& 0xFFFF &&& 0xFFFF) = _
    rw [and_lowWord_idem]
    exact high_or_low _

theorem spPlus_zero : s.spPlus 0 = s.sp := by
  have hzero : s.sp + 0 = s.sp := BitVec.add_zero _
  rw [spPlus, hzero]
  exact s.wrapStack_idem _

end Processor

namespace Exec

omit [Host H] in
theorem release_zero (m : Machine H) : (release 0 : Exec H Unit).run m = .ok () m := by
  have hsame : m.toProcessor.setSp (m.toProcessor.spPlus 0) = m.toProcessor := by
    rw [Processor.spPlus_zero, Processor.setSp_sp]
  exact congrArg (fun s => EStateM.Result.ok () { m with toProcessor := s }) hsame

/-! ## Operands -/

/-- Runs a far instruction whose operands are known. -/
def runFar : FarInstruction → Exec H Unit
  | .transfer transfer w dest => transferFar transfer w dest.selector dest.offset
  | .ret w released => do
    returnFar w released
    release released

theorem fetchIndirectFar_hasEffect (p : Prefixes) (w : Width) (mode : ModeByte) (place : Operand) :
    HasEffect .checks (fetchIndirectFar p w mode place : Exec H (Option FarInstruction)) := by
  unfold fetchIndirectFar
  split
  · exact (loadFarTarget_hasEffect p w place).map _
  · exact (loadFarTarget_hasEffect p w place).map _
  · exact .pure _

theorem fetchFar_hasEffect (p : Prefixes) (i : Instruction) :
    HasEffect .checks (fetchFar p i : Exec H (Option FarInstruction)) := by
  cases i with
  | far transfer => exact .skip (.view _) fun w => (fetchFarTarget_hasEffect p w).map _
  | indirectGroup =>
    refine .skip (.view _) fun w => .andThen (fetchOperand_hasEffect p) fun found => ?_
    exact fetchIndirectFar_hasEffect p w found.1 found.2
  | retFar => exact .skip (.view _) fun w => (checkLock_hasEffect p).map _
  | retFarReleasing =>
    refine .skip (.view _) fun w => .andThen fetchReleased_hasEffect fun bytes => ?_
    exact (checkLock_hasEffect p).map _
  | _ => exact .pure _

theorem indirectOperand_of_far {w : Width} {mode : ModeByte} {place : Operand}
    (h : (fetchIndirectFar p w mode place).run m = .ok (some far) m₁) :
    (indirectOperand p w mode place).run m = (runFar far).run m₁ := by
  unfold fetchIndirectFar at h
  unfold indirectOperand
  match hr : mode.reg.toNat with
  | 3 =>
    simp only [hr] at h
    obtain ⟨dest, m', hdest, hdone⟩ := run_bind_eq_ok_iff.1 h
    cases hdone
    exact run_bind_of_ok hdest _
  | 5 =>
    simp only [hr] at h
    obtain ⟨dest, m', hdest, hdone⟩ := run_bind_eq_ok_iff.1 h
    cases hdone
    exact run_bind_of_ok hdest _
  | 0 | 1 | 2 | 4 | n + 6 =>
    simp only [hr] at h
    cases h

/-- An instruction that is far runs as one, once its operands are taken from the code. -/
theorem runInstruction_of_far (h : (fetchFar p i).run m = .ok (some far) m₁) :
    (runInstruction p i).run m = (runFar far).run m₁ := by
  cases i with
  | far transfer =>
    rw [fetchFar, operandWidth, run_view_bind] at h
    obtain ⟨dest, m', hdest, hdone⟩ := run_bind_eq_ok_iff.1 h
    cases hdone
    rw [runInstruction, operandWidth, run_view_bind]
    exact run_bind_of_ok hdest _
  | indirectGroup =>
    rw [fetchFar, operandWidth, run_view_bind] at h
    obtain ⟨⟨mode, place⟩, m', hplace, h⟩ := run_bind_eq_ok_iff.1 h
    rw [runInstruction, operandWidth, run_view_bind, indirectGroup, run_bind_of_ok hplace]
    exact indirectOperand_of_far h
  | retFar =>
    rw [fetchFar, operandWidth, run_view_bind] at h
    obtain ⟨_, m', hlock, hdone⟩ := run_bind_eq_ok_iff.1 h
    cases hdone
    rw [runInstruction, operandWidth, run_view_bind, retFar, run_bind_of_ok hlock, runFar,
      EStateM.run_bind]
    cases (returnFar (p.operandWidth m.toProcessor) 0).run m₁ with
    | ok _ m'' => exact (release_zero m'').symm
    | error f m'' => rfl
  | retFarReleasing =>
    rw [fetchFar, operandWidth, run_view_bind] at h
    obtain ⟨bytes, m', hbytes, h⟩ := run_bind_eq_ok_iff.1 h
    obtain ⟨_, m'', hlock, hdone⟩ := run_bind_eq_ok_iff.1 h
    cases hdone
    rw [runInstruction, operandWidth, run_view_bind, retFarReleasing, run_bind_of_ok hbytes,
      run_bind_of_ok hlock]
    rfl
  | _ => cases h

end Exec

/-! ## Steps -/

/-- A machine takes a far instruction with its operands from the code. -/
structure Machine.FetchesFar (m : Machine H) (far : FarInstruction) (m₁ : Machine H) : Prop where
  run : fetchFarInstruction.run m = .ok (some far) m₁
  moved : ∃ eip log, m₁ = { m with eip := eip, log := log }

/-- The offset behind the far instruction at the instruction pointer. -/
def Machine.offsetBehind? (m : Machine H) : Option Dword :=
  value? (do
    let _ ← fetchFarInstruction
    view (·.eip)) m

theorem Machine.exists_fetchesFar (h : m.farInstruction? = some far) :
    ∃ m₁, m.FetchesFar far m₁ := by
  obtain ⟨m₁, hrun⟩ := value?_eq_some_iff.1 (Option.join_eq_some_iff.1 h)
  refine ⟨m₁, hrun, ?_⟩
  obtain ⟨decoded, m', hfetch, hfar⟩ := run_bind_eq_ok_iff.1 hrun
  obtain ⟨eip, log, rfl⟩ := (fetchInstruction_moves m).of_ok hfetch
  split at hfar
  next p i =>
    obtain ⟨eip', log', rfl⟩ := (fetchFar_hasEffect p i).moved rfl hfar
    exact ⟨_, _, rfl⟩
  next => cases hfar

namespace Machine.FetchesFar

theorem offsetBehind (h : m.FetchesFar far m₁) : m.offsetBehind? = some m₁.eip := by
  rw [Machine.offsetBehind?, value?_bind_of_ok h.run]
  rfl

theorem execute_run (h : m.FetchesFar far m₁) :
    execute.run m = (do runFar far; return true : Exec H Bool).run m₁ := by
  obtain ⟨decoded, m', hfetch, hfar⟩ := run_bind_eq_ok_iff.1 h.run
  rw [execute, run_bind_of_ok hfetch]
  split at hfar
  next p i =>
    simp only [EStateM.run_bind, runInstruction_of_far hfar]
  next => cases hfar

/-- A step at a far instruction that succeeds is completed. -/
theorem step (h : m.FetchesFar far m₁) (hr : (runFar far).run m₁ = .ok () m₂) :
    m.step = (.completed, { m₂ with retired := m₂.retired + 1 }) := by
  have hexec : execute.run m = .ok true m₂ := by
    rw [h.execute_run]
    exact run_bind_of_ok hr _
  rw [Machine.step, hexec]

/-- In a completed step at a far instruction, the instruction has succeeded. -/
theorem run_of_completed (h : m.FetchesFar far m₁) (hs : m.step.1 = .completed) :
    ∃ m₂, (runFar far).run m₁ = .ok () m₂ ∧ m.step.2 = { m₂ with retired := m₂.retired + 1 } := by
  cases hr : (runFar far).run m₁ with
  | ok _ m₂ => exact ⟨m₂, rfl, congrArg Prod.snd (h.step hr)⟩
  | error f m₂ =>
    have hexec : execute.run m = .error f m₂ := by
      rw [h.execute_run, EStateM.run_bind, hr]
    rw [Machine.step, hexec] at hs
    cases hs

end Machine.FetchesFar

end Ia32
