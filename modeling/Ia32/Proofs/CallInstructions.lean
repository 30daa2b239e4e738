import Ia32.Proofs.FarRuns
import Ia32.Proofs.InstructionParts

/-!
# Calls and returns

A near call and a near return in two parts, and far transfers with them: an
instruction that leaves a return address on the stack or takes one, with its
operands, and what it does then.
-/

namespace Ia32

open Exec

variable {H : Type} [Host H]

/-- A call, a return or a far jump, with what its operands say. -/
inductive Linkage where
  /-- A call inside the code segment. -/
  | nearCall (w : Width) (target : Dword)
  /-- A return inside the code segment that releases some bytes of the stack. -/
  | nearReturn (w : Width) (released : Word)
  /-- A far transfer. -/
  | far (far : FarInstruction)
deriving DecidableEq, Repr

namespace Exec

/-- The call of the indirect group that a mode byte names, with its target. -/
def fetchIndirectLinkage (p : Prefixes) (w : Width) (mode : ModeByte) (place : Operand) :
    Exec H (Option Linkage) :=
  if mode.reg.toNat = 2 then do
    checkLock p
    return some (.nearCall w (← readOperand w place))
  else return (← fetchIndirectFar p w mode place).map .far

/-- Takes the operands of a call, a return or a far transfer from the code.  The answer is none for
another instruction. -/
def fetchLinkage (p : Prefixes) : Instruction → Exec H (Option Linkage)
  | .call => do
    let w ← operandWidth p
    let distance ← fetchDistance w false
    checkLock p
    return some (.nearCall w ((← view (·.eip)) + distance))
  | .indirectGroup => do
    let w ← operandWidth p
    let (mode, place) ← fetchOperand p
    fetchIndirectLinkage p w mode place
  | .ret => do
    let w ← operandWidth p
    checkLock p
    return some (.nearReturn w 0)
  | .retReleasing => do
    let w ← operandWidth p
    let bytes ← fetchReleased
    checkLock p
    return some (.nearReturn w bytes)
  | i => return (← fetchFar p i).map .far

/-- Runs a call, a return or a far transfer whose operands are known. -/
def runLinkage : Linkage → Exec H Unit
  | .nearCall w target => callTo w target
  | .nearReturn w released => do
    returnNear w
    release released
  | .far far => runFar far

theorem fetchLinkage_hasEffect (p : Prefixes) (i : Instruction) :
    HasEffect .checks (fetchLinkage p i : Exec H (Option Linkage)) := by
  cases i with
  | call =>
    refine .skip (.view _) fun w => .andThen (fetchDistance_hasEffect w false) fun distance => ?_
    exact .andThen (checkLock_hasEffect p) fun _ => .skip (.view _) fun eip => .pure _
  | indirectGroup =>
    refine .skip (.view _) fun w => .andThen (fetchOperand_hasEffect p) fun found => ?_
    refine .ite ?_ ((fetchIndirectFar_hasEffect p w found.1 found.2).map _)
    refine .andThen (checkLock_hasEffect p) fun _ => ?_
    exact .andThen (readOperand_observes w found.2).hasEffect fun target => .pure _
  | ret => exact .skip (.view _) fun w => (checkLock_hasEffect p).map _
  | retReleasing =>
    refine .skip (.view _) fun w => .andThen fetchReleased_hasEffect fun bytes => ?_
    exact (checkLock_hasEffect p).map _
  | _ => exact (fetchFar_hasEffect p _).map _

variable {m m₁ : Machine H} {p : Prefixes} {i : Instruction} {link : Linkage}

omit [Host H] in
/-- What is taken of a far transfer is a far transfer. -/
theorem exists_far_of_map {x : Exec H (Option FarInstruction)}
    (h : (do return (← x).map Linkage.far : Exec H (Option Linkage)).run m = .ok (some link) m₁) :
    ∃ far, link = .far far ∧ x.run m = .ok (some far) m₁ := by
  obtain ⟨far?, m', hx, hdone⟩ := run_bind_eq_ok_iff.1 h
  cases far? with
  | none => cases hdone
  | some far =>
    cases hdone
    exact ⟨far, rfl, hx⟩

theorem indirectOperand_of_linkage {w : Width} {mode : ModeByte} {place : Operand}
    (h : (fetchIndirectLinkage p w mode place).run m = .ok (some link) m₁) :
    (indirectOperand p w mode place).run m = (runLinkage link).run m₁ := by
  unfold fetchIndirectLinkage at h
  split at h
  next hr =>
    obtain ⟨_, m', hlock, h⟩ := run_bind_eq_ok_iff.1 h
    obtain ⟨target, m'', htarget, hdone⟩ := run_bind_eq_ok_iff.1 h
    cases hdone
    simp only [indirectOperand, hr]
    rw [nearIndirect, run_bind_of_ok hlock, run_bind_of_ok htarget]
    rfl
  next =>
    obtain ⟨far, rfl, hfar⟩ := exists_far_of_map h
    exact indirectOperand_of_far hfar

/-- A call, a return or a far transfer runs as one, once its operands are taken from the code. -/
theorem runInstruction_of_linkage (h : (fetchLinkage p i).run m = .ok (some link) m₁) :
    (runInstruction p i).run m = (runLinkage link).run m₁ := by
  cases i with
  | call =>
    rw [fetchLinkage, operandWidth, run_view_bind] at h
    obtain ⟨distance, m', hdistance, h⟩ := run_bind_eq_ok_iff.1 h
    obtain ⟨_, m'', hlock, hdone⟩ := run_bind_eq_ok_iff.1 h
    cases hdone
    rw [runInstruction, operandWidth, run_view_bind, call, run_bind_of_ok hdistance,
      run_bind_of_ok hlock]
    rfl
  | indirectGroup =>
    rw [fetchLinkage, operandWidth, run_view_bind] at h
    obtain ⟨⟨mode, place⟩, m', hplace, h⟩ := run_bind_eq_ok_iff.1 h
    rw [runInstruction, operandWidth, run_view_bind, indirectGroup, run_bind_of_ok hplace]
    exact indirectOperand_of_linkage h
  | ret =>
    rw [fetchLinkage, operandWidth, run_view_bind] at h
    obtain ⟨_, m', hlock, hdone⟩ := run_bind_eq_ok_iff.1 h
    cases hdone
    rw [runInstruction, operandWidth, run_view_bind, ret, run_bind_of_ok hlock, runLinkage,
      EStateM.run_bind]
    cases (returnNear (p.operandWidth m.toProcessor)).run m₁ with
    | ok _ m'' => exact (release_zero m'').symm
    | error f m'' => rfl
  | retReleasing =>
    rw [fetchLinkage, operandWidth, run_view_bind] at h
    obtain ⟨bytes, m', hbytes, h⟩ := run_bind_eq_ok_iff.1 h
    obtain ⟨_, m'', hlock, hdone⟩ := run_bind_eq_ok_iff.1 h
    cases hdone
    rw [runInstruction, operandWidth, run_view_bind, retReleasing, run_bind_of_ok hbytes,
      run_bind_of_ok hlock]
    rfl
  | _ =>
    obtain ⟨far, rfl, hfar⟩ := exists_far_of_map h
    exact runInstruction_of_far hfar

/-- Calls, returns and far transfers in two parts. -/
def linkages : Parts H Linkage where
  take := fetchLinkage
  run := runLinkage
  take_hasEffect := fetchLinkage_hasEffect
  run_eq := runInstruction_of_linkage

end Exec

/-- The call, the return or the far transfer at the instruction pointer, and the offset of the next
instruction. -/
def Machine.linkage? (m : Machine H) : Option (Taken Linkage) := m.taken? linkages

end Ia32
