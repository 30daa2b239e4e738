import Ia32.Host.Ram
import Ia32.Proofs.StepRuns

/-!
# Where transfers of control land

A jump, a call or a return checks its target before it goes there: when it is
completed, the instruction pointer lies inside the code segment, and the next
instruction does not begin with a fault that the transfer should have raised.
This holds for near and far transfers, in every mode and for both widths of
operands.

There is one exception.  A far return in real mode takes its target from the
stack as it is, and in a frame of 32 bits the target may lie beyond the 64 KiB
of the segment.
-/

namespace Ia32

open Host Exec

variable {H : Type}

/-- The instruction pointer lies inside the code segment. -/
def Processor.InCode (s : Processor) : Prop := s.segs.cs.contains s.eip 1 = true

instance (s : Processor) : Decidable s.InCode := inferInstanceAs (Decidable (_ = true))

/-- A segment of real mode holds the offsets of 16 bits. -/
theorem SegmentCache.realMode_contains_iff (selector : Word) (vm86 : Bool) (offset : Dword) :
    (realMode selector vm86).contains offset 1 = true ↔ offset ≤ 0xFFFF := by
  simp [contains, realMode, BitVec.le_def]

namespace Exec

variable {α β : Type}

/-! ## Landing -/

/-- A program leaves the instruction pointer inside the code segment, unless it faults. -/
def Lands (x : Exec H α) : Prop := ∀ m, Ends x m (fun _ m' => m'.InCode) fun _ _ => True

namespace Lands

/-- What comes before a program that lands does not matter. -/
theorem bind {x : Exec H β} {k : β → Exec H α} (hk : ∀ b, Lands (k b)) : Lands (x >>= k) := by
  intro m
  rw [ends_bind]
  exact (Ends.always x m).mono (fun b m₁ _ => hk b m₁) fun _ _ _ => trivial

/-- After it has landed, a program may do what leaves the instruction pointer in the code. -/
theorem andThen {x : Exec H β} {k : β → Exec H α} (hx : Lands x)
    (hk : ∀ b (m : Machine H), m.InCode → Ends (k b) m (fun _ m' => m'.InCode) fun _ _ => True) :
    Lands (x >>= k) := by
  intro m
  rw [ends_bind]
  exact (hx m).mono hk fun _ _ _ => trivial

theorem throw (f : Fault) : Lands (MonadExcept.throw f : Exec H α) := fun _ => trivial

theorem ite {c : Prop} [Decidable c] {x y : Exec H α} (hx : Lands x) (hy : Lands y) :
    Lands (if c then x else y) := by
  split
  · exact hx
  · exact hy

/-- A check that faults, and what follows it. -/
theorem guard {c : Prop} [Decidable c] {f : Fault} {k : β → Exec H α} {y : Exec H α}
    (hy : ¬c → Lands y) : Lands (if c then MonadExcept.throw f >>= k else y) := by
  split
  · exact fun _ => trivial
  next h => exact hy h

end Lands

/-! ## Near transfers -/

/-- The check of a near target asks whether one byte can be fetched there, and changes nothing. -/
theorem checkTarget_ends (target : Dword) (m : Machine H) :
    Ends (checkTarget target) m
      (fun _ m' => m' = m ∧ m.segs.cs.contains target 1 = true) fun _ _ => True := by
  rw [checkTarget, ends_bind, ends_view, ends_ite]
  exact ⟨fun _ => trivial, fun h => ⟨rfl, by simpa using h⟩⟩

/-- Checks a target, does something that leaves the segment registers alone, and goes there. -/
theorem checkAndGo_lands [Host H] {e : Effect} {x : Exec H β} (hx : HasEffect e x)
    (target : Dword) :
    Lands (do
      checkTarget target
      let _ ← x
      goTo target : Exec H Unit) := by
  intro m
  rw [ends_bind]
  refine (checkTarget_ends target m).mono (fun _ m₁ h₁ => ?_) fun _ _ _ => trivial
  obtain ⟨rfl, htarget⟩ := h₁
  rw [ends_bind]
  have hc : CoversSegments (fun _ _ _ => True) m₁ := fun _ _ _ _ _ => trivial
  refine (hx hc).mono (fun _ m₂ h₂ => ?_) fun _ _ _ => trivial
  rw [goTo, ends_update, Processor.InCode, h₂.segs]
  exact htarget

variable [Host H]

/-- A near jump is checked before the pointer is moved. -/
theorem jumpTo_lands (w : Width) (target : Dword) : Lands (jumpTo w target : Exec H Unit) :=
  checkAndGo_lands (HasEffect.pure () : HasEffect .silent _) (w.truncate target)

theorem jumpBy_lands (w : Width) (distance : Dword) : Lands (jumpBy w distance : Exec H Unit) :=
  .bind fun _ => jumpTo_lands w _

theorem callTo_lands (w : Width) (target : Dword) : Lands (callTo w target : Exec H Unit) := by
  have hpush : HasEffect _ (do push w (← view (·.eip)) : Exec H Unit) :=
    .skip (.view _) fun eip => push_hasEffect w eip
  simpa only [callTo, bind_assoc] using checkAndGo_lands hpush (w.truncate target)

/-- A near return checks the offset that it has popped. -/
theorem returnNear_lands (w : Width) : Lands (returnNear w : Exec H Unit) := by
  have hsp : HasEffect (.changes [.stackPointer])
      (update fun s => s.setSp (s.spPlus (BitVec.ofNat 32 w.bytes)) : Exec H Unit) :=
    .update fun _ m => setSp_agree m _
  exact .bind fun _ => .bind fun target => checkAndGo_lands hsp target

/-! ## Far transfers -/

omit [Host H] in
theorem enter_lands {cs : SegmentCache} {offset : Dword} (h : cs.contains offset 1 = true) :
    Lands (enter cs offset : Exec H Unit) := fun _ => h

/-- A far transfer checks its target against the limit of the segment that it loads. -/
theorem enterCode_lands (selector : Word) (d : Descriptor) (level : Byte) (offset : Dword)
    (frame : Option Width) : Lands (enterCode selector d level offset frame : Exec H Unit) := by
  refine .bind fun top? => .guard fun h => .bind fun _ => ?_
  have henter := enter_lands (H := H) (by simpa using h)
  split
  · exact .bind fun _ => henter
  · exact henter

theorem enterDirect_lands (transfer : Transfer) (w : Width) (selector : Word) (d : Descriptor)
    (offset : Dword) : Lands (enterDirect transfer w selector d offset : Exec H Unit) :=
  .bind fun cpl => .guard fun _ => .guard fun _ => enterCode_lands selector d cpl offset _

theorem callInner_lands (target : GateTarget) (w : Width) (offset : Dword) (count : Nat) :
    Lands (callInner target w offset count : Exec H Unit) := by
  refine .bind fun stack => .guard fun _ => .guard fun h => ?_
  have henter := enter_lands (H := H) (by simpa using h)
  -- Between the check and the entry stand the inner stack and the copy of the parameters.
  exact .bind fun _ => .bind fun _ => .bind fun _ => .bind fun _ => .bind fun _ => .bind fun _ =>
    .bind fun _ => henter

theorem callGate_lands (selector : Word) (gate : Descriptor) :
    Lands (callGate selector gate : Exec H Unit) :=
  .bind fun target => .guard fun _ => .bind fun cpl =>
    .ite (callInner_lands target _ _ _) (enterCode_lands _ _ cpl _ _)

theorem jumpGate_lands (selector : Word) (gate : Descriptor) :
    Lands (jumpGate selector gate : Exec H Unit) :=
  .bind fun target => .bind fun cpl => .guard fun _ => .guard fun _ =>
    enterCode_lands target.selector _ cpl _ none

theorem transferProtected_lands (transfer : Transfer) (w : Width) (selector : Word)
    (offset : Dword) : Lands (transferProtected transfer w selector offset : Exec H Unit) := by
  refine .guard fun _ => .bind fun d => .ite (enterDirect_lands transfer w selector d offset) ?_
  refine .ite ?_ (.ite (.throw _) (.ite (.throw _) (.throw _)))
  cases transfer with
  | call => exact callGate_lands selector d
  | jump => exact jumpGate_lands selector d

omit [Host H] in
/-- Without descriptors a segment of code has 64 KiB, and the offset of a jump or a call is
compared with that. -/
theorem enterReal_lands {offset : Dword} (h : offset ≤ 0xFFFF) (selector : Word) :
    Lands (enterReal selector offset : Exec H Unit) := fun _ =>
  (SegmentCache.realMode_contains_iff selector _ offset).mpr h

omit [Host H] in
/-- A transfer in real mode goes on when its target has 16 bits. -/
theorem checkRealOffset_bind_lands {offset : Dword} {k : Unit → Exec H α}
    (hk : offset ≤ 0xFFFF → ∀ u, Lands (k u)) : Lands (checkRealOffset offset >>= k) := by
  intro m
  rw [ends_bind, checkRealOffset, ends_ite]
  exact ⟨fun _ => trivial, fun h => hk (BitVec.not_lt.mp h) () m⟩

theorem transferReal_lands (transfer : Transfer) (w : Width) (selector : Word) (offset : Dword) :
    Lands (transferReal transfer w selector offset : Exec H Unit) := by
  cases transfer with
  | jump => exact checkRealOffset_bind_lands fun h _ => enterReal_lands h selector
  | call =>
    refine .bind fun top => checkRealOffset_bind_lands fun h _ => ?_
    exact .bind fun _ => enterReal_lands h selector

theorem transferFar_lands (transfer : Transfer) (w : Width) (selector : Word) (offset : Dword) :
    Lands (transferFar transfer w selector offset : Exec H Unit) :=
  .bind fun _ => .ite (transferProtected_lands transfer w selector offset)
    (transferReal_lands transfer w selector offset)

theorem nearIndirect_lands (p : Prefixes) (w : Width) (transfer : Transfer) (place : Operand) :
    Lands (nearIndirect p w transfer place : Exec H Unit) := by
  refine .bind fun _ => .bind fun target => ?_
  cases transfer with
  | call => exact callTo_lands w target
  | jump => exact jumpTo_lands w target

theorem farIndirect_lands (p : Prefixes) (w : Width) (transfer : Transfer) (place : Operand) :
    Lands (farIndirect p w transfer place : Exec H Unit) :=
  .bind fun dest => transferFar_lands transfer w dest.selector dest.offset

/-! ## Far returns -/

/-- A return to an outer level is checked against the segment that it returns to. -/
theorem returnOuter_lands (w : Width) (selector : Word) (d : Descriptor) (released : Word) :
    Lands (returnOuter w selector d released : Exec H Unit) := by
  refine .bind fun _ => .guard fun _ => .bind fun offset => .bind fun _ => .bind fun esp => ?_
  refine .bind fun _ => .bind fun _ => .guard fun _ => .bind fun stack => .guard fun _ => ?_
  refine .guard fun _ => .guard fun h => .bind fun _ => .bind fun _ => ?_
  -- The outer stack is loaded after the code segment, which it leaves alone.
  exact (enter_lands (by simpa using h)).andThen fun _ m hm => hm

theorem returnSame_lands (w : Width) (selector : Word) (d : Descriptor) :
    Lands (returnSame w selector d : Exec H Unit) :=
  .bind fun _ => .guard fun h => .bind fun _ => .bind fun _ => enter_lands (by simpa using h)

theorem returnProtected_lands (w : Width) (released : Word) :
    Lands (returnProtected w released : Exec H Unit) := by
  refine .bind fun _ => .guard fun _ => .bind fun _ => .guard fun _ => .bind fun d => ?_
  refine .bind fun _ => .guard fun _ => .guard fun _ => ?_
  exact .ite (returnOuter_lands w _ d released) (returnSame_lands w _ d)

/-- The top of the stack holds an offset of more than 16 bits, and a return does not check it. -/
structure PopsBeyond (w : Width) (m : Machine H) : Prop where
  unchecked : m.usesDescriptors = false
  popped : ∃ offset, value? (frameValue w 0) m = some offset ∧ 0xFFFF < offset

theorem readLinear_length (linear : Dword) (n : Nat) (m : Machine H) :
    Ends (readLinear linear n) m (fun bytes _ => bytes.length = n) fun _ _ => True := by
  rw [readLinear, ends_bind, ends_get]
  split
  next h => exact length_hostBytes h
  next => trivial

/-- A value in memory fits in its width. -/
theorem load_lt (w : Width) (seg : Seg) (offset : Dword) (m : Machine H) :
    Ends (load w seg offset) m (fun value _ => value.toNat < Nat.pow 256 w.bytes)
      fun _ _ => True := by
  rw [load, ends_bind, loadBytes, ends_bind]
  refine (Ends.always _ m).mono (fun linear m₁ _ => ?_) fun _ _ _ => trivial
  refine (readLinear_length linear w.bytes m₁).mono (fun bytes m₂ hlength => ?_)
    fun _ _ _ => trivial
  rw [ends_pure, BitVec.toNat_ofNat, ← hlength]
  exact Nat.lt_of_le_of_lt (Nat.mod_le _ _) (littleEndian_lt bytes)

/-- A return in real mode goes to the offset on the stack. -/
theorem returnReal_inCode (w : Width) (m : Machine H) :
    Ends (returnReal w) m (fun _ m' => ∃ offset, value? (frameValue w 0) m = some offset ∧
      (m'.InCode ↔ offset ≤ 0xFFFF)) fun _ _ => True := by
  rw [returnReal, ends_bind]
  refine Ends.mono ((frameValue_observes w 0).finds m) (fun offset m₁ h₁ => ?_) fun _ _ _ => trivial
  obtain ⟨rfl, hoffset⟩ := h₁
  rw [ends_bind]
  refine (Ends.always _ _).mono (fun selector m₂ _ => ?_) fun _ _ _ => trivial
  exact ⟨offset, hoffset, SegmentCache.realMode_contains_iff _ _ offset⟩

/-- A far return without descriptors checks nothing, and it is the only transfer that can land
outside its segment. -/
theorem returnFar_inCode (w : Width) (released : Word) (m : Machine H) :
    Ends (returnFar w released) m (fun _ m' => m'.InCode ↔ ¬PopsBeyond w m) fun _ _ => True := by
  rw [returnFar, ends_bind, ends_view, ends_ite]
  constructor
  · intro hu
    refine (returnProtected_lands w released m).mono (fun _ m' h => ?_) fun _ _ _ => trivial
    exact iff_of_true h fun hp => absurd hu (by simp [hp.unchecked])
  · intro hu
    refine (returnReal_inCode w m).mono (fun _ m' h => ?_) fun _ _ _ => trivial
    obtain ⟨offset, hoffset, hin⟩ := h
    have hpops : PopsBeyond w m ↔ 0xFFFF < offset := by
      refine ⟨fun h => ?_, fun hlt => ⟨by simpa using hu, offset, hoffset, hlt⟩⟩
      obtain ⟨offset', hoffset', hlt⟩ := h.popped
      obtain rfl : offset = offset' := Option.some.inj (hoffset.symm.trans hoffset')
      exact hlt
    rw [hin, hpops, BitVec.not_lt]

/-- Whether a return checks its target depends neither on the instruction pointer nor on the
log. -/
theorem popsBeyond_moved (w : Width) (m : Machine H) (eip : Dword) (log : Log) :
    PopsBeyond w { m with eip := eip, log := log } ↔ PopsBeyond w m := by
  have hv := frameValue_steady w 0 m eip log
  exact ⟨fun h => ⟨h.unchecked, hv ▸ h.popped⟩, fun h => ⟨h.unchecked, hv ▸ h.popped⟩⟩

/-- A far return after something that moves the instruction pointer and the log alone. -/
theorem inCode_after {w : Width} {x : Exec H β} {k : β → Exec H α} (hx : HasEffect .checks x)
    (hk : ∀ b (m : Machine H),
      Ends (k b) m (fun _ m' => m'.InCode ↔ ¬PopsBeyond w m) fun _ _ => True) (m : Machine H) :
    Ends (x >>= k) m (fun _ m' => m'.InCode ↔ ¬PopsBeyond w m) fun _ _ => True := by
  have hc : CoversSegments (fun _ _ _ => True) m := fun _ _ _ _ _ => trivial
  rw [ends_bind]
  refine (hx hc).mono (fun b m₁ ha => ?_) fun _ _ _ => trivial
  obtain ⟨eip, log, rfl⟩ := ha.exists_moved
  simpa only [popsBeyond_moved] using hk b { m with eip := eip, log := log }

theorem retFar_inCode (p : Prefixes) (w : Width) (m : Machine H) :
    Ends (retFar p w) m (fun _ m' => m'.InCode ↔ ¬PopsBeyond w m) fun _ _ => True :=
  inCode_after (checkLock_hasEffect p) (fun _ => returnFar_inCode w 0) m

theorem retFarReleasing_inCode (p : Prefixes) (w : Width) (m : Machine H) :
    Ends (retFarReleasing p w) m (fun _ m' => m'.InCode ↔ ¬PopsBeyond w m) fun _ _ => True := by
  refine inCode_after (fetchReleased_hasEffect.weaken (by decide)) (fun bytes => ?_) m
  refine inCode_after (checkLock_hasEffect p) fun _ m₁ => ?_
  rw [ends_bind]
  exact (returnFar_inCode w bytes m₁).mono (fun _ _ h => h) fun _ _ _ => trivial

/-! ## What transfers control -/

/-- Whether an instruction transfers control.  A conditional jump does so when its condition holds,
and of the indirect group the calls and jumps do. -/
def transfersControl (p : Prefixes) : Instruction → Exec H Bool
  | .jump _ | .call | .ret | .retReleasing | .far _ | .retFar | .retFarReleasing => return true
  | .jumpIf code _ => view fun s => Flags.condition s.eflags code
  | .loop mode => do
    let left ← decrementCounter p
    let zero ← view (·.flag Flags.zero)
    return left ≠ 0 && mode.all (·.accepts zero)
  | .jumpIfCounterZero => return (← counter p) == 0
  | .indirectGroup => return (ModeByte.ofByte (← fetch8)).reg.toNat ∈ [2, 3, 4, 5]
  | _ => return false

/-- Whether the instruction at the instruction pointer transfers control. -/
def fetchTransfersControl : Exec H Bool := do
  match ← fetchInstruction with
  | some ⟨p, .ok instruction⟩ => transfersControl p instruction
  | _ => return false

/-- A program lands when a condition holds of the machine at its start. -/
def LandsWhen (c : Exec H Bool) (x : Exec H α) : Prop :=
  ∀ m, value? c m = some true → Ends x m (fun _ m' => m'.InCode) fun _ _ => True

namespace LandsWhen

omit [Host H]

theorem of_lands {c : Exec H Bool} {x : Exec H α} (hx : Lands x) : LandsWhen c x := fun m _ => hx m

/-- An answer that is known decides whether anything must be shown. -/
theorem pure {b : Bool} {x : Exec H α} (hx : b = true → Lands x) :
    LandsWhen (Pure.pure b) x := fun m h => hx (Option.some.inj h) m

/-- A program that begins as its condition does. -/
theorem bind {x : Exec H β} {c : β → Exec H Bool} {k : β → Exec H α}
    (hk : ∀ b, LandsWhen (c b) (k b)) : LandsWhen (x >>= c) (x >>= k) := by
  intro m h
  rw [ends_bind]
  refine ((Ends.always x m).follow c).mono (fun b m₁ h₁ => ?_) fun _ _ _ => trivial
  exact hk b m₁ (h₁.1.symm.trans h)

/-- A program that does something under its condition. -/
theorem branch {c : Exec H Bool} {x : Exec H Unit} (hx : Lands x) :
    LandsWhen c (do if ← c then x) := by
  intro m h
  rw [ends_bind]
  refine (Ends.always c m).value.mono (fun b m₁ h₁ => ?_) fun _ _ _ => trivial
  obtain rfl : true = b := Option.some.inj (h.symm.trans h₁.1)
  exact hx m₁

theorem view {c : Exec H Bool} {f : Processor → β} {k : β → Exec H α}
    (hk : ∀ b, LandsWhen c (k b)) : LandsWhen c (Exec.view f >>= k) := fun m => hk _ m

/-- The instruction pointer and the log may move before a program, if its condition does not
depend on them. -/
theorem after [Host H] {x : Exec H β} {c : Exec H Bool} {k : β → Exec H α}
    (hx : HasEffect .checks x) (hc : Steady c) (hk : ∀ b, LandsWhen c (k b)) :
    LandsWhen c (x >>= k) := by
  intro m h
  have hcovers : CoversSegments (fun _ _ _ => True) m := fun _ _ _ _ _ => trivial
  rw [ends_bind]
  refine (hx hcovers).mono (fun b m₁ ha => ?_) fun _ _ _ => trivial
  obtain ⟨eip, log, rfl⟩ := ha.exists_moved
  exact hk b _ ((hc m eip log).trans h)

end LandsWhen

/-! ## Instructions -/

/-- A conditional jump is checked when its condition holds. -/
theorem jumpIf_landsWhen (p : Prefixes) (w : Width) (code : BitVec 4) (short : Bool) :
    LandsWhen (view fun s => Flags.condition s.eflags code)
      (jumpIf p w code short : Exec H Unit) := by
  have hc : Steady (view fun s => Flags.condition s.eflags code : Exec H Bool) := fun _ _ _ => rfl
  refine .after (checkLock_hasEffect p) hc fun _ => ?_
  refine .after ((fetchDistance_hasEffect w short).weaken (by decide)) hc fun distance => ?_
  exact .branch (jumpBy_lands w distance)

theorem loop_landsWhen (p : Prefixes) (w : Width) (mode : Option RepeatMode) :
    LandsWhen (transfersControl p (.loop mode)) (loop p w mode : Exec H Unit) := by
  have hc : Steady (transfersControl p (.loop mode) : Exec H Bool) := fun _ _ _ => rfl
  refine .after (fetchSigned8_hasEffect.weaken (by decide)) hc fun distance => ?_
  refine .after (checkLock_hasEffect p) hc fun _ => ?_
  simpa only [transfersControl, bind_assoc, pure_bind] using
    LandsWhen.branch (c := transfersControl p (.loop mode)) (jumpBy_lands w distance)

theorem jumpIfCounterZero_landsWhen (p : Prefixes) (w : Width) :
    LandsWhen (transfersControl p .jumpIfCounterZero) (jumpIfCounterZero p w : Exec H Unit) := by
  have hc : Steady (transfersControl p .jumpIfCounterZero : Exec H Bool) := fun _ _ _ => rfl
  refine .after (fetchSigned8_hasEffect.weaken (by decide)) hc fun distance => ?_
  refine .after (checkLock_hasEffect p) hc fun _ => ?_
  simpa only [transfersControl, bind_assoc, pure_bind, beq_iff_eq] using
    LandsWhen.branch (c := transfersControl p .jumpIfCounterZero) (jumpBy_lands w distance)

theorem indirectOperand_lands (p : Prefixes) (w : Width) {m : ModeByte} (place : Operand)
    (hm : m.reg.toNat ∈ [2, 3, 4, 5]) : Lands (indirectOperand p w m place : Exec H Unit) := by
  unfold indirectOperand
  match hr : m.reg.toNat, hm with
  | 2, _ => exact nearIndirect_lands p w .call place
  | 3, _ => exact farIndirect_lands p w .call place
  | 4, _ => exact nearIndirect_lands p w .jump place
  | 5, _ => exact farIndirect_lands p w .jump place

theorem indirectGroup_landsWhen (p : Prefixes) (w : Width) :
    LandsWhen (transfersControl p .indirectGroup) (indirectGroup p w : Exec H Unit) := by
  have h : LandsWhen (do return (ModeByte.ofByte (← fetch8)).reg.toNat ∈ [2, 3, 4, 5]) (do
      let b ← fetch8
      let place ← operand p (ModeByte.ofByte b)
      indirectOperand p w (ModeByte.ofByte b) place : Exec H Unit) :=
    .bind fun b => .pure fun hb => .bind fun place =>
      indirectOperand_lands p w place (of_decide_eq_true hb)
  simpa only [transfersControl, indirectGroup, fetchOperand, bind_assoc, pure_bind] using h

/-- An instruction is a far return that does not check the target on the stack. -/
structure ReturnsBeyond (p : Prefixes) (i : Instruction) (m : Machine H) : Prop where
  isReturn : i = .retFar ∨ i = .retFarReleasing
  pops : PopsBeyond (p.operandWidth m.toProcessor) m

theorem returnsBeyond_iff (p : Prefixes) {i : Instruction}
    (hi : i = .retFar ∨ i = .retFarReleasing) (m : Machine H) :
    ReturnsBeyond p i m ↔ PopsBeyond (p.operandWidth m.toProcessor) m :=
  ⟨fun h => h.pops, fun h => ⟨hi, h⟩⟩

/-- A completed transfer of control goes into the code segment, unless it is a far return that does
not check its target. -/
theorem runInstruction_inCode (p : Prefixes) (i : Instruction) {m : Machine H}
    (hm : value? (transfersControl p i) m = some true) :
    Ends (runInstruction p i) m (fun _ m' => m'.InCode ↔ ¬ReturnsBeyond p i m)
      fun _ _ => True := by
  have lands : LandsWhen (transfersControl p i) (runInstruction p i : Exec H Unit) →
      i ≠ .retFar → i ≠ .retFarReleasing →
      Ends (runInstruction p i) m (fun _ m' => m'.InCode ↔ ¬ReturnsBeyond p i m)
        fun _ _ => True := fun hl hn hn' =>
    (hl m hm).mono (fun _ _ h => iff_of_true h fun hr => hr.isReturn.elim hn hn')
      fun _ _ _ => trivial
  cases i with
  | jump short =>
    exact lands (.of_lands (.bind fun w => .bind fun _ => .bind fun distance =>
      jumpBy_lands w distance)) nofun nofun
  | jumpIf code short => exact lands (.view fun w => jumpIf_landsWhen p w code short) nofun nofun
  | loop mode => exact lands (.view fun w => loop_landsWhen p w mode) nofun nofun
  | jumpIfCounterZero => exact lands (.view fun w => jumpIfCounterZero_landsWhen p w) nofun nofun
  | call =>
    exact lands (.of_lands (.bind fun w => .bind fun _ => .bind fun _ => .bind fun _ =>
      callTo_lands w _)) nofun nofun
  | ret => exact lands (.of_lands (.bind fun w => .bind fun _ => returnNear_lands w)) nofun nofun
  | retReleasing =>
    exact lands (.of_lands (.bind fun w => .bind fun _ => .bind fun _ =>
      (returnNear_lands w).andThen fun _ _ h => h)) nofun nofun
  | far transfer =>
    exact lands (.of_lands (.bind fun w => .bind fun dest =>
      transferFar_lands transfer w dest.selector dest.offset)) nofun nofun
  | indirectGroup => exact lands (.view fun w => indirectGroup_landsWhen p w) nofun nofun
  | retFar =>
    rw [runInstruction, operandWidth, ends_bind, ends_view, returnsBeyond_iff p (.inl rfl)]
    exact retFar_inCode p (p.operandWidth m.toProcessor) m
  | retFarReleasing =>
    rw [runInstruction, operandWidth, ends_bind, ends_view, returnsBeyond_iff p (.inr rfl)]
    exact retFarReleasing_inCode p (p.operandWidth m.toProcessor) m
  | _ => cases hm

end Exec

/-! ## Steps -/

namespace Machine

variable [Host H] {m : Machine H}

/-- The instruction at the instruction pointer transfers control. -/
def TransfersControl (m : Machine H) : Prop := value? fetchTransfersControl m = some true

instance (m : Machine H) : Decidable m.TransfersControl := inferInstanceAs (Decidable (_ = _))

/-- The instruction at the instruction pointer is a far return that does not check its target. -/
def ReturnsBeyond (m : Machine H) : Prop :=
  ∃ p i, m.instruction? = some (p, i) ∧ Exec.ReturnsBeyond p i m

/-- A step that transfers control goes into the code segment, unless it is a far return that does
not check its target. -/
theorem inCode_step_iff (h : m.step.1 = .completed) (ht : m.TransfersControl) :
    m.step.2.InCode ↔ ¬m.ReturnsBeyond := by
  have hruns := m.step_runs
  generalize m.step.1 = ending, m.step.2 = m' at hruns h
  subst h
  cases hruns with
  | @completed p i m₁ m₂ hfetch hr =>
    have hm : value? (transfersControl p i) m₁ = some true := by
      rw [TransfersControl, fetchTransfersControl, value?_bind_of_ok hfetch.run] at ht
      exact ht
    have hin : m₂.InCode ↔ ¬Exec.ReturnsBeyond p i m₁ := (runInstruction_inCode p i hm).of_ok hr
    -- The frame of a return is the same before the fetch and after it.
    have hbeyond : m.ReturnsBeyond ↔ Exec.ReturnsBeyond p i m₁ := by
      obtain ⟨eip, log, rfl⟩ := hfetch.moved
      constructor
      · rintro ⟨p', i', hi, hret⟩
        rw [hfetch.instruction?] at hi
        cases hi
        exact ⟨hret.isReturn, (popsBeyond_moved _ m eip log).mpr hret.pops⟩
      · intro hret
        have hpops := (popsBeyond_moved _ m eip log).mp hret.pops
        exact ⟨p, i, hfetch.instruction?, hret.isReturn, hpops⟩
    rw [hbeyond]
    exact hin

/-- A machine in real mode before a far return.  At offset 8 a marker calls for a frame of 32 bits,
at offset 9 the return stands alone.  The frame holds `00010008` or `0008`. -/
def returningFar (start : Dword) : Machine Ram :=
  let bytes := #[0x08, 0x00, 0x01, 0x00, 0x00, 0x00, 0x00, 0x00, 0x66, 0xCB]
  let m := Machine.initial ⟨⟨bytes⟩, none, 0, #[]⟩ {}
  { m with eip := start, segs := m.segs.set .cs (.realMode 0 false) }

/-- The return with a frame of 16 bits goes into the code. -/
theorem inCode_returningFar :
    (returningFar 9).step.1 = .completed ∧ (returningFar 9).TransfersControl ∧
      (returningFar 9).step.2.InCode ∧
      ((returningFar 9).step.2.InCode ↔ ¬(returningFar 9).ReturnsBeyond) :=
  ⟨by decide +kernel, by decide +kernel, by decide +kernel,
    inCode_step_iff (by decide +kernel) (by decide +kernel)⟩

/-- The return with a frame of 32 bits is completed and leaves the code. -/
theorem not_inCode_returningFar :
    (returningFar 8).step.1 = .completed ∧ (returningFar 8).TransfersControl ∧
      ¬(returningFar 8).step.2.InCode := by
  decide +kernel

end Machine

end Ia32
