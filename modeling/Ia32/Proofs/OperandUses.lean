import Ia32.Proofs.BitInstructions
import Ia32.Proofs.OperandPlaces
import Ia32.Proofs.PackedDecimals
import Ia32.Proofs.SavedState
import Ia32.Proofs.SegmentAccesses

/-!
# Uses of operands in memory

What an instruction does with an operand in memory is known from its opcode and its
mode byte (`Instruction.use`).  Most instructions access the bytes at the offset of the
operand.  Two do more: a bit instruction accesses the unit that holds the bit, and a
far transfer reads a selector above the offset of its target.

A use tells the accesses that belong to it (`OperandUse.accesses`), and the programs
that work on an operand make these accesses and no others.
-/

namespace Ia32

open Exec

/-! ## Uses -/

/-- What an instruction does with an operand in memory. -/
inductive OperandUse where
  /-- Nothing. -/
  | none
  /-- It reads some bytes. -/
  | reads (len : Nat)
  /-- It writes some bytes. -/
  | writes (len : Nat) (certain : Bool)
  /-- It reads some bytes and writes them. -/
  | updates (len : Nat) (certain : Bool)
  /-- It works on bit `n` of the string that starts there. -/
  | bit (op : BitOp) (w : Width) (n : Int)
  /-- It reads an offset with a selector above it. -/
  | pointer (w : Width)
deriving DecidableEq, Repr

namespace OperandUse

/-- The accesses of a use to the operand at an offset. -/
def accesses (seg : Seg) (offset : Dword) : OperandUse → List SegmentAccess
  | none => []
  | reads len => [⟨.read, seg, offset, len, true⟩]
  | writes len certain => [⟨.write, seg, offset, len, certain⟩]
  | updates len certain => [⟨.read, seg, offset, len, true⟩, ⟨.write, seg, offset, len, certain⟩]
  | bit op w n =>
    ⟨.read, seg, unitStart w offset n, w.bytes, true⟩ ::
      if op = .test then [] else [⟨.write, seg, unitStart w offset n, w.bytes, true⟩]
  | pointer w =>
    [⟨.read, seg, offset, w.bytes, true⟩,
      ⟨.read, seg, offset + BitVec.ofNat 32 w.bytes, Width.word.bytes, true⟩]

/-- The use of an operand that is also the place of the result, if there is one. -/
def operates (len : Nat) (writesBack : Bool) : OperandUse :=
  if writesBack then updates len true else reads len

/-- A bit instruction writes its operand back unless it only tests. -/
theorem accesses_operates_of_bit (op : BitOp) (len : Nat) (seg : Seg) (offset : Dword) :
    (operates len (op ≠ .test)).accesses seg offset = ⟨.read, seg, offset, len, true⟩ ::
      if op = .test then [] else [⟨.write, seg, offset, len, true⟩] := by
  cases op <;> rfl

end OperandUse

/-! ## Tables -/

/-- The use of an operand by an instruction of the floating-point unit. -/
def FloatInstruction.use : FloatInstruction → OperandUse
  | .arithMemory _ format | .compareMemory format _ | .load format => .reads format.bytes
  | .storeReal format _ => .writes format.bytes false
  | .storeInt format _ => .writes format.bytes false
  | .storeDecimal => .writes 10 false
  | .loadControl => .reads Width.word.bytes
  | .storeControl | .storeStatus => .writes Width.word.bytes true
  | .save => .writes Fpu.imageSize true
  | .restore => .reads Fpu.imageSize
  | _ => .none

/-- The width that a size stands for. -/
def Size.width (p : Prefixes) (s : Processor) : Size → Width
  | .byte => .byte
  | .full => p.operandWidth s

namespace Instruction

/-- The use of an operand in the group of indirect transfers. -/
def indirectUse (w : Width) (mode : ModeByte) : OperandUse :=
  match mode.reg.toNat with
  | 0 | 1 => .updates w.bytes true
  | 3 | 5 => .pointer w
  | 7 => .none
  | _ => .reads w.bytes

/-- The width of the operands of an instruction. -/
def width (p : Prefixes) (s : Processor) : Instruction → Width
  | .aluToOperand size _ | .aluToRegister size _ | .aluImmediate size _ | .testRegister size
  | .unaryGroup size | .shiftGroup size _ => size.width p s
  | .incrementByte | .setCondition _ => .byte
  | _ => p.operandWidth s

/-- The use of an operand by an instruction with operands of a width. -/
def use (w : Width) (s : Processor) (mode : ModeByte) : Instruction → OperandUse
  | .aluToOperand _ op => .operates w.bytes op.writesBack
  | .aluImmediate _ _ => .operates w.bytes (AluOp.ofBits mode.reg).writesBack
  | .aluToRegister _ _ | .testRegister _ | .multiplyRegister | .multiplyImmediate _ | .bitScan _ =>
    .reads w.bytes
  | .incrementByte => .updates w.bytes true
  | .unaryGroup _ => .operates w.bytes (mode.reg.toNat = 2 ∨ mode.reg.toNat = 3)
  | .indirectGroup => indirectUse w mode
  | .setCondition _ | .popOperand => .writes w.bytes true
  | .shiftGroup _ _ | .doubleShift _ _ => .updates w.bytes false
  | .bitByRegister op => .bit op w (w.toInt (s.reg w mode.firstRegister))
  | .bitByImmediate => .operates w.bytes (BitOp.ofBits (mode.reg.setWidth 2) ≠ .test)
  | .escape number =>
    match FloatInstruction.decode number mode with
    | .ok i => i.use
    | .error _ => .none
  | _ => .none

end Instruction

/-! ## Integer programs -/

namespace Exec

variable {H : Type}

theorem checkRepeatedScan_quiet (p : Prefixes) (order : ScanOrder) :
    Quiet (checkRepeatedScan p order : Exec H Unit) := by
  refine .ite (.after .get fun m => ?_) (.pure ())
  split
  · exact .throw rfl
  · exact .note _ _ _

/-- The check of a lock looks at the operation and at the kind of its operand, and asks for no
memory. -/
theorem checkLockOnBit_quiet (p : Prefixes) (op : BitOp) (place : Operand) :
    Quiet (checkLockOnBit p op place : Exec H Unit) :=
  .ite (checkLock_quiet p) (.ite (.pure ()) (checkLock_quiet p))

variable [Host H]

theorem storeProduct_quiet (w : Width) (r : Reg) (a b : Dword) :
    Quiet (storeProduct w r a b : Exec H Unit) := by
  refine .of_hasEffect (computed_hasEffect fun m => ?_) rfl
  exact (((Computed.refl m).setReg w r _).setFlag (by decide) _).setCarryOverflow _

theorem aluRegister_quiet (w : Width) (op : AluOp) (r : Reg) (b : Dword) :
    Quiet (aluRegister w op r b : Exec H Unit) := by
  refine .after (.view _) fun a => .after (.of_hasEffect (alu_hasEffect w op a b) rfl) fun result => ?_
  exact .ite (.of_hasEffect (setReg_hasEffect w r result) rfl) (.pure ())

section Integers

variable (hH : Host.Unsegmented H) (p : Prefixes) (w : Width) (seg : Seg) (offset : Dword)

include hH

/-- A comparison reads its operand only.  The other operations write it back too, where the read
was granted. -/
theorem aluOperand_accesses (op : AluOp) (b : Dword) :
    Accesses ((OperandUse.operates w.bytes op.writesBack).accesses seg offset)
      (aluOperand p w op (.memory seg offset) b : Exec H Unit) := by
  have halu (a : Dword) : Quiet (alu w op a b : Exec H Dword) :=
    .of_hasEffect (alu_hasEffect w op a b) rfl
  unfold aluOperand
  cases hop : op.writesBack with
  | true =>
    refine .cons (load_accesses hH w seg offset) fun a => .after (halu a) fun result => ?_
    exact store_accesses hH true w seg offset result
  | false =>
    refine .andThen (load_accesses hH w seg offset) fun a => .after (checkLock_quiet p) fun _ => ?_
    exact .after (halu a) fun _ => .pure ()

theorem testOperand_accesses (b : Dword) :
    Accesses ((OperandUse.reads w.bytes).accesses seg offset)
      (testOperand p w (.memory seg offset) b : Exec H Unit) := by
  refine .andThen (load_accesses hH w seg offset) fun a => .after (checkLock_quiet p) fun _ => ?_
  exact .of_hasEffect (testValues_hasEffect w a b) rfl

/-- The place that was read is written again, so that the write fails only where it is not
writable. -/
theorem modifyOperand_accesses {f : Dword → Dword → Dword × Dword} (hf : SetsArithmetic f) :
    Accesses ((OperandUse.updates w.bytes true).accesses seg offset)
      (modifyOperand p w (.memory seg offset) f : Exec H Unit) := by
  have hunary (value : Dword) : HasEffect (.changes [.arithmeticFlags])
      (unary f value : Exec H Dword) := .updateWith fun _ m => flags_agree m (hf m.eflags value)
  refine .after (.pure ()) fun _ => .cons (load_accesses hH w seg offset) fun value => ?_
  refine .after (.of_hasEffect (hunary value) rfl) fun result => ?_
  exact store_accesses hH true w seg offset result

/-- A program that refuses a lock, reads the operand and computes. -/
theorem reading_accesses {k : Dword → Exec H Unit} (hk : ∀ b, Quiet (k b)) :
    Accesses ((OperandUse.reads w.bytes).accesses seg offset) (do
      checkLock p
      k (← readOperand w (.memory seg offset))) :=
  .after (checkLock_quiet p) fun _ => .andThen (load_accesses hH w seg offset) hk

theorem divideBy_accesses (name : String)
    (division : Pair → Dword → Except DivisionFailure Division) :
    Accesses ((OperandUse.reads w.bytes).accesses seg offset)
      (divideBy p w (.memory seg offset) name division : Exec H Unit) := by
  refine reading_accesses hH p w seg offset fun divisor => .after (.view _) fun pair => ?_
  split
  next d _ =>
    refine .of_hasEffect (computed_hasEffect fun m => ?_) rfl
    exact (Computed.refl m).setAccumulatorPair w _ _
  next => exact .after (.note _ _ _) fun _ => .throw rfl

theorem multiply_accesses :
    Accesses ((OperandUse.reads w.bytes).accesses seg offset)
      (multiply p w (.memory seg offset) : Exec H Unit) := by
  refine reading_accesses hH p w seg offset fun b => ?_
  refine .of_hasEffect (computed_hasEffect fun m => ?_) rfl
  exact ((Computed.refl m).setAccumulatorPair w _ _).setCarryOverflow _

theorem signedMultiply_accesses :
    Accesses ((OperandUse.reads w.bytes).accesses seg offset)
      (signedMultiply p w (.memory seg offset) : Exec H Unit) := by
  refine reading_accesses hH p w seg offset fun b => ?_
  refine .of_hasEffect (computed_hasEffect fun m => ?_) rfl
  exact (((Computed.refl m).setAccumulatorPair w _ _).setFlag (by decide) _).setCarryOverflow _

/-- A shift by nothing does not write, so that its write is not certain. -/
theorem shiftOperand_accesses {f : Dword → Dword → Option Outcome} (hf : ShiftsArithmetic f) :
    Accesses ((OperandUse.updates w.bytes false).accesses seg offset)
      (shiftOperand w (.memory seg offset) f : Exec H Unit) := by
  refine .cons (load_accesses hH w seg offset) fun value => ?_
  refine .after (.of_hasEffect (shiftValue_hasEffect hf value) rfl) fun result? => ?_
  cases result? with
  | none => exact .of_quiet (.pure ()) (List.forall_mem_singleton.2 rfl)
  | some result => exact store_accesses hH false w seg offset result

/-- Writes the index of a bit, or says that there is none. -/
theorem scan_accesses (order : ScanOrder) (r : Reg) :
    Accesses ((OperandUse.reads w.bytes).accesses seg offset) (do
      match scan? w order (← readOperand w (.memory seg offset)) with
      | some index =>
        update fun s => (s.setFlag Flags.zero false).setReg w r (BitVec.ofNat 32 index)
      | none => update (·.setFlag Flags.zero true) : Exec H Unit) := by
  refine .andThen (load_accesses hH w seg offset) fun value => ?_
  split
  next index _ =>
    refine .of_hasEffect (computed_hasEffect fun m => ?_) rfl
    exact ((Computed.refl m).setFlag (by decide) false).setReg w r _
  next =>
    refine .of_hasEffect (computed_hasEffect fun m => ?_) rfl
    exact (Computed.refl m).setFlag (by decide) true

/-- The accesses of a bit instruction to a unit. -/
theorem bitOperand_accesses (op : BitOp) (index : Nat) :
    Accesses (⟨.read, seg, offset, w.bytes, true⟩ ::
        if op = .test then [] else [⟨.write, seg, offset, w.bytes, true⟩])
      (bitOperand w op (.memory seg offset) index : Exec H Unit) := by
  have hcarry (on : Bool) : HasEffect (.changes [.arithmeticFlags])
      (update (·.setFlag Flags.carry on) : Exec H Unit) :=
    .update fun _ m => setFlag_agree m (by decide) on
  refine .cons (load_accesses hH w seg offset) fun value => ?_
  refine .after (.of_hasEffect (hcarry _) rfl) fun _ => ?_
  by_cases hop : op = .test
  · rw [if_pos hop, if_neg (not_not.2 hop)]
    exact .pure ()
  · rw [if_neg hop, if_pos hop]
    exact store_accesses hH true w seg offset _

end Integers

/-! ## The indirect group -/

section Indirect

variable (p : Prefixes) (w : Width) (seg : Seg) (offset : Dword)

/-- Reads the target that an instruction of the indirect group finds in memory.  A near target has
no selector. -/
def readTarget (mode : ModeByte) : Exec H FarTarget :=
  match mode.reg.toNat with
  | 3 | 5 => do
    let target ← load w seg offset
    let selector ← load .word seg (offset + BitVec.ofNat 32 w.bytes)
    return ⟨selector.setWidth 16, target⟩
  | _ => do
    let target ← load w seg offset
    return ⟨0, target⟩

/-- What an instruction of the indirect group does with a target that it has read. -/
def followTarget (mode : ModeByte) (target : FarTarget) : Exec H Unit :=
  match mode.reg.toNat with
  | 2 => callTo w target.offset
  | 3 => transferFar .call w target.selector target.offset
  | 4 => jumpTo w target.offset
  | 5 => transferFar .jump w target.selector target.offset
  | 6 => push w target.offset
  | _ => pure ()

variable {mode : ModeByte} (hlow : 2 ≤ mode.reg.toNat) (hhigh : mode.reg.toNat ≤ 6)

include hlow hhigh

omit [Host H] in
/-- The members of the group that follow their operand are those with the numbers two to six. -/
theorem reg_cases : mode.reg.toNat = 2 ∨ mode.reg.toNat = 3 ∨ mode.reg.toNat = 4 ∨
    mode.reg.toNat = 5 ∨ mode.reg.toNat = 6 := by
  omega

/-- The instructions that read a target and follow it. -/
theorem indirectOperand_eq :
    (indirectOperand p w mode (.memory seg offset) : Exec H Unit) = (do
      checkLock p
      followTarget w mode (← readTarget w seg offset mode)) := by
  rcases reg_cases hlow hhigh with h | h | h | h | h <;>
    simp only [indirectOperand, readTarget, followTarget, h, nearIndirect, farIndirect,
      loadFarTarget, memoryPlace, pushOperand, readOperand, bind_assoc, pure_bind]

/-- The selector stands behind the offset, and is read from a place of its own. -/
theorem readTarget_accesses (hH : Host.Unsegmented H) :
    Accesses ((Instruction.indirectUse w mode).accesses seg offset)
      (readTarget w seg offset mode : Exec H FarTarget) := by
  have hnear : Accesses ((OperandUse.reads w.bytes).accesses seg offset) (do
      let target ← load w seg offset
      return ⟨0, target⟩ : Exec H FarTarget) :=
    .andThen (load_accesses hH w seg offset) fun _ => .pure _
  have hfar : Accesses ((OperandUse.pointer w).accesses seg offset) (do
      let target ← load w seg offset
      let selector ← load .word seg (offset + BitVec.ofNat 32 w.bytes)
      return ⟨selector.setWidth 16, target⟩ : Exec H FarTarget) :=
    .cons (load_accesses hH w seg offset) fun target =>
      .andThen (load_accesses hH .word seg _) fun _ => .pure _
  rcases reg_cases hlow hhigh with h | h | h | h | h <;> simp only [readTarget, Instruction.indirectUse, h]
  all_goals first | exact hnear | exact hfar

omit hlow hhigh in
theorem readTarget_observes : Observes (readTarget w seg offset mode : Exec H FarTarget) := by
  unfold readTarget
  split
  · exact .bind (load_observes w seg offset) fun _ => .bind (load_observes .word seg _) fun _ => .pure _
  · exact .bind (load_observes w seg offset) fun _ => .bind (load_observes .word seg _) fun _ => .pure _
  · exact .bind (load_observes w seg offset) fun _ => .pure _

/-- An instruction that follows a target has been granted the accesses to its operand.  If it ends
in a fault of a segment, then either one of these accesses was denied, or it has read the target
and cannot follow it. -/
theorem indirectOperand_follows (hH : Host.Unsegmented H) (m : Machine H) :
    Ends (indirectOperand p w mode (.memory seg offset)) m
      (fun _ _ => ∀ a ∈ (Instruction.indirectUse w mode).accesses seg offset,
        a.certain → a.Granted m.toProcessor)
      (fun f m' => f.isSegmentFault →
        (∃ a ∈ (Instruction.indirectUse w mode).accesses seg offset, ¬a.Granted m.toProcessor) ∨
        ∃ target, (readTarget w seg offset mode).run m = .ok target m ∧
          (followTarget w mode target).run m = .error f m') := by
  rw [indirectOperand_eq p w seg offset hlow hhigh, ends_bind]
  refine Ends.mono ((checkLock_ends p m).and (checkLock_quiet p m)) ?_ fun f _ h hf => ?_
  · rintro _ m₁ ⟨rfl, -⟩
    rw [ends_bind]
    have hread := readTarget_accesses w seg offset hlow hhigh hH m₁
    cases hr : (readTarget w seg offset mode).run m₁ with
    | ok target m₂ =>
      obtain rfl := (readTarget_observes w seg offset m₁).of_ok hr
      have hgranted := (Ends.of_ok hread hr).2
      unfold Ends
      rw [hr]
      dsimp only
      cases hfollow : (followTarget w mode target).run m₂ with
      | ok _ _ => exact hgranted
      | error f m₃ => exact fun _ => .inr ⟨target, rfl, hfollow⟩
    | error f m₂ =>
      unfold Ends
      rw [hr]
      exact fun hf => .inl (Ends.of_error hread hr hf)
  · obtain ⟨_, ha, -⟩ := h.2 hf
    cases ha

end Indirect

end Exec

end Ia32
