import Ia32.Proofs.FloatUses

/-!
# Accesses to operands

When an instruction with an operand in memory stands at the instruction pointer
(`OperandSite`), its step makes the accesses that belong to the use of the operand.
With 16-bit addresses the offset of the operand is below 64 KiB, and so every access
starts there, but for the two uses that add to the offset: the unit of a bit and the
selector of a far pointer are sought at a sum that is not cut to 16 bits.
-/

namespace Ia32

open Exec

variable {H : Type} [Host H]

/-! ## Offsets -/

namespace Exec

theorem fetchBytes_length (n : Nat) (m : Machine H) :
    Ends (fetchBytes n) m (fun bytes _ => bytes.length = n) fun _ _ => True := by
  induction n generalizing m with
  | zero => exact rfl
  | succ n ih =>
    rw [fetchBytes, ends_bind]
    refine (Ends.always fetch8 m).mono (fun b m₁ _ => ?_) fun _ _ h => h
    rw [ends_bind]
    exact (ih m₁).mono (fun _ _ h => congrArg (· + 1) h) fun _ _ h => h

theorem fetch_word_lt (m : Machine H) :
    Ends (fetch .word) m (fun value _ => value.toNat < 2 ^ 16) fun _ _ => True := by
  rw [fetch, ends_bind]
  refine (fetchBytes_length _ m).mono (fun bytes _ hn => ?_) fun _ _ h => h
  have hlt := littleEndian_lt bytes
  rw [hn] at hlt
  rw [ends_pure, BitVec.toNat_ofNat]
  exact Nat.lt_of_le_of_lt (Nat.mod_le _ _) hlt

/-- A 16-bit address is below 64 KiB. -/
theorem address16_lt (mode : BitVec 2) (rm : BitVec 3) (m : Machine H) :
    Ends (address16 mode rm) m (fun place _ => place.2.toNat < 2 ^ 16) fun _ _ => True := by
  unfold address16
  extract_lets join
  -- whatever the displacement is, the sum with it is cut
  have hjoin (displacement : Dword) (m : Machine H) :
      Ends (join displacement) m (fun place _ => place.2.toNat < 2 ^ 16) fun _ _ => True := by
    change (Width.word.truncate _).toNat < 2 ^ 16
    rw [Width.toNat_truncate]
    exact Nat.mod_lt _ (by decide)
  rw [ends_ite]
  constructor
  · intro _
    rw [ends_bind]
    exact fetch_word_lt m
  · intro _
    have hthen {x : Exec H Dword} : Ends (x >>= join) m (fun place _ => place.2.toNat < 2 ^ 16)
        fun _ _ => True := by
      rw [ends_bind]
      exact (Ends.always x m).mono (fun d m₁ _ => hjoin d m₁) fun _ _ h => h
    rw [ends_ite]
    refine ⟨fun _ => hthen, fun _ => ?_⟩
    rw [ends_ite]
    exact ⟨fun _ => hthen, fun _ => hthen⟩

/-- With 16-bit addresses the offset of an operand is below 64 KiB. -/
theorem operand_lt {p : Prefixes} {mode : ModeByte} {seg : Seg} {offset : Dword} {m m₁ : Machine H}
    (hnarrow : p.address32 m.toProcessor = false)
    (hr : (operand p mode).run m = .ok (.memory seg offset) m₁) : offset.toNat < 2 ^ 16 := by
  have hends : Ends (operand p mode) m
      (fun place _ => ∀ seg offset, place = .memory seg offset → offset.toNat < 2 ^ 16)
      fun _ _ => True := by
    unfold operand
    rw [ends_ite]
    refine ⟨fun _ => nofun, fun _ => ?_⟩
    rw [ends_bind, ends_view, hnarrow, if_neg Bool.false_ne_true, ends_bind]
    refine (address16_lt mode.mode mode.rm m).mono (fun place m₁ h => ?_) fun _ _ h => h
    rintro _ _ ⟨⟩
    exact h
  exact hends.of_ok hr seg offset rfl

end Exec

namespace OperandUse

/-- An access of the use starts outside the first 64 KiB. -/
def Leaves (offset : Dword) : OperandUse → Prop
  | bit _ w n =>
    offset.toNat + n.fdiv w.bits * w.bytes < 0 ∨ 2 ^ 16 ≤ offset.toNat + n.fdiv w.bits * w.bytes
  | pointer w => 2 ^ 16 ≤ offset.toNat + w.bytes
  | _ => False

/-- The number of a bit is one that a register can hold. -/
def Fits : OperandUse → Prop
  | bit _ w n => w.Holds n
  | _ => True

variable {offset : Dword}

theorem unitStart_lt_iff {w : Width} {n : Int} (ho : offset.toNat < 2 ^ 16) (hn : w.Holds n) :
    (unitStart w offset n).toNat < 2 ^ 16 ↔
      0 ≤ offset.toNat + n.fdiv w.bits * w.bytes ∧
        offset.toNat + n.fdiv w.bits * w.bytes < 2 ^ 16 := by
  obtain ⟨hlow, hhigh⟩ := hn
  rw [unitStart, BitVec.toNat_add, BitVec.toNat_ofInt,
    Int.fdiv_eq_ediv_of_nonneg _ (Int.natCast_nonneg _)]
  cases w <;> simp only [Width.half, Width.bits, Width.bytes] at * <;> omega

/-- All accesses of a use start in the first 64 KiB, unless it leaves them. -/
theorem start_lt_iff {use : OperandUse} {seg : Seg} (ho : offset.toNat < 2 ^ 16) (hf : use.Fits) :
    (∀ a ∈ use.accesses seg offset, a.start.toNat < 2 ^ 16) ↔ ¬use.Leaves offset := by
  cases use with
  | none => exact ⟨fun _ => not_false, fun _ => nofun⟩
  | reads | writes => exact iff_of_true (List.forall_mem_singleton.2 ho) not_false
  | updates =>
    exact iff_of_true (List.forall_mem_cons.2 ⟨ho, List.forall_mem_singleton.2 ho⟩) not_false
  | bit op w n =>
    have hall : (∀ a ∈ (bit op w n).accesses seg offset, a.start.toNat < 2 ^ 16) ↔
        (unitStart w offset n).toNat < 2 ^ 16 := by
      by_cases hop : op = .test <;> simp [accesses, hop]
    rw [hall, unitStart_lt_iff ho hf, Leaves, not_or, Int.not_lt, Int.not_le]
  | pointer w =>
    have hselector : (offset + BitVec.ofNat 32 w.bytes).toNat = offset.toNat + w.bytes := by
      rw [BitVec.toNat_add, BitVec.toNat_ofNat]
      cases w <;> simp only [Width.bytes] <;> omega
    have hall : (∀ a ∈ (pointer w).accesses seg offset, a.start.toNat < 2 ^ 16) ↔
        offset.toNat < 2 ^ 16 ∧ offset.toNat + w.bytes < 2 ^ 16 := by
      rw [accesses, List.forall_mem_cons, List.forall_mem_singleton, hselector]
    rw [hall, Leaves, Nat.not_le]
    exact and_iff_right ho

end OperandUse

theorem OperandUse.fits_operates (len : Nat) (writesBack : Bool) : (operates len writesBack).Fits := by
  cases writesBack <;> trivial

theorem FloatInstruction.fits_use (i : FloatInstruction) : i.use.Fits := by
  cases i <;> trivial

/-- The number of a bit comes from a register. -/
theorem Instruction.fits_use (w : Width) (s : Processor) (mode : ModeByte) (i : Instruction) :
    (i.use w s mode).Fits := by
  cases i with
  | aluToOperand | aluImmediate | unaryGroup | bitByImmediate => exact OperandUse.fits_operates _ _
  | bitByRegister => exact w.holds_toInt _
  | indirectGroup =>
    rw [use, indirectUse]
    split <;> trivial
  | escape =>
    rw [use]
    split
    · exact FloatInstruction.fits_use _
    · trivial
  | _ => trivial

/-! ## Sites -/

/-- Whether a mode byte follows the opcode. -/
def Instruction.takesMode : Instruction → Bool
  | .aluToOperand _ _ | .aluToRegister _ _ | .aluImmediate _ _ | .testRegister _ | .incrementByte
  | .unaryGroup _ | .indirectGroup | .multiplyRegister | .multiplyImmediate _ | .setCondition _
  | .shiftGroup _ _ | .doubleShift _ _ | .bitScan _ | .bitByRegister _ | .bitByImmediate
  | .popOperand | .escape _ => true
  | _ => false

/-- An instruction at the instruction pointer, with its operand in memory. -/
structure OperandSite where
  /-- The markers before it. -/
  markers : Prefixes
  /-- The instruction. -/
  instruction : Instruction
  /-- The width of its operands. -/
  width : Width
  /-- The mode byte. -/
  mode : ModeByte
  /-- The segment of the operand. -/
  seg : Seg
  /-- The offset of the operand. -/
  offset : Dword
  /-- The offset of the next instruction. -/
  next : Dword
deriving DecidableEq, Repr

namespace Exec

/-- What an instruction does before it takes its operand from the code.  An operand to be popped
into depends on the stack pointer after the pop. -/
def beforeOperand (w : Width) (i : Instruction) : Exec H Unit :=
  if i = .popOperand then do
    let _ ← pop w
  else pure ()

/-- Takes what follows the operand in the code. -/
def afterOperand (w : Width) (mode : ModeByte) : Instruction → Exec H Unit
  | .aluImmediate _ short | .multiplyImmediate short => do
    let _ ← fetchImmediate w short
  | .unaryGroup _ =>
    if mode.reg.toNat < 2 then do
      let _ ← fetch w
    else pure ()
  | .shiftGroup _ count | .doubleShift _ count => do
    let _ ← shiftCount count
  | .bitByImmediate => do
    let _ ← fetch .byte
  | _ => pure ()

/-- Takes an instruction with an operand in memory from the code.  The answer is none for another
instruction. -/
def fetchSite : Exec H (Option OperandSite) := do
  match ← fetchInstruction with
  | some ⟨p, .ok i⟩ =>
    if i.takesMode then
      let w ← view (i.width p)
      let mode := ModeByte.ofByte (← fetch8)
      beforeOperand w i
      match ← operand p mode with
      | .memory seg offset =>
        afterOperand w mode i
        return some ⟨p, i, w, mode, seg, offset, ← view (·.eip)⟩
      | .register _ => return none
    else return none
  | _ => return none

end Exec

/-- The instruction at the instruction pointer, if it has an operand in memory. -/
def Machine.operandSite? (m : Machine H) : Option OperandSite := (value? fetchSite m).join

/-- An instruction takes its mode byte from the code, then its operand in memory, and then what
follows the operand. -/
structure Machine.TakesOperand (m : Machine H) (p : Prefixes) (i : Instruction) (mode : ModeByte)
    (seg : Seg) (offset : Dword) (b : Byte) (m₁ m₂ m₃ : Machine H) : Prop where
  byte : fetch8.run m = .ok b m₁
  mode_eq : mode = .ofByte b
  operand : (operand p mode).run m₁ = .ok (.memory seg offset) m₂
  after : (afterOperand (i.width p m.toProcessor) mode i).run m₂ = .ok () m₃
  moved₁ : ∃ eip log, m₁ = { m with eip := eip, log := log }
  moved₂ : ∃ eip log, m₂ = { m with eip := eip, log := log }
  moved₃ : ∃ eip log, m₃ = { m with eip := eip, log := log }

theorem Machine.TakesOperand.fetchOperand {m : Machine H} {p : Prefixes} {i : Instruction}
    {mode : ModeByte} {seg : Seg} {offset : Dword} {b : Byte} {m₁ m₂ m₃ : Machine H}
    (h : m.TakesOperand p i mode seg offset b m₁ m₂ m₃) :
    (fetchOperand p).run m = .ok (mode, .memory seg offset) m₂ := by
  rw [Exec.fetchOperand, run_bind_of_ok h.byte, ← h.mode_eq]
  exact run_bind_of_ok h.operand _

namespace Exec

variable {α : Type} {p : Prefixes} {i : Instruction} {mode : ModeByte} {seg : Seg} {offset : Dword}
  {b : Byte} {m m₁ m₂ m₃ : Machine H} {L : List SegmentAccess}

/-- What an instruction does after it has taken its operand. -/
theorem AccessesAt.fetchOperand {k : ModeByte × Operand → Exec H Unit}
    (h : m.TakesOperand p i mode seg offset b m₁ m₂ m₃)
    (hk : AccessesAt m₂ L (k (mode, .memory seg offset))) : AccessesAt m L (fetchOperand p >>= k) := by
  obtain ⟨eip, log, hm₂⟩ := h.moved₂
  exact .of_run h.fetchOperand (by rw [hm₂]; exact ⟨rfl, rfl⟩) hk

/-- What an instruction takes after its operand. -/
theorem AccessesAt.fetchAfter {x : Exec H α} {k : α → Exec H Unit}
    (h : m.TakesOperand p i mode seg offset b m₁ m₂ m₃)
    (hx : afterOperand (i.width p m.toProcessor) mode i = do let _ ← x)
    (hk : ∀ a, Accesses L (k a)) : AccessesAt m₂ L (x >>= k) := by
  obtain ⟨eip, log, rfl⟩ := h.moved₂
  obtain ⟨eip', log', rfl⟩ := h.moved₃
  have hafter := h.after
  rw [hx, run_bind_eq_ok_iff] at hafter
  obtain ⟨a, m', hrun, hdone⟩ := hafter
  cases hdone
  exact .of_run hrun ⟨rfl, rfl⟩ (hk a _)

section Instructions

variable (hH : Host.Unsegmented H)

include hH

theorem incrementByte_accessesAt (h : m.TakesOperand p .incrementByte mode seg offset b m₁ m₂ m₃) :
    AccessesAt m ((OperandUse.updates 1 true).accesses seg offset) (incrementByte p) := by
  refine .fetchOperand h ?_
  dsimp only
  split
  · exact modifyOperand_accesses hH p .byte seg offset (setsArithmetic_increment .byte) m₂
  · exact modifyOperand_accesses hH p .byte seg offset (setsArithmetic_decrement .byte) m₂
  · exact Accesses.throw rfl m₂

theorem unaryGroup_accessesAt {size : Size}
    (h : m.TakesOperand p (.unaryGroup size) mode seg offset b m₁ m₂ m₃) :
    AccessesAt m
      ((OperandUse.operates (size.width p m.toProcessor).bytes
        (mode.reg.toNat = 2 ∨ mode.reg.toNat = 3)).accesses seg offset)
      (unaryGroup p (size.width p m.toProcessor)) := by
  have htest (hreg : mode.reg.toNat < 2) : AccessesAt m₂
      ((OperandUse.reads (size.width p m.toProcessor).bytes).accesses seg offset) (do
        testOperand p (size.width p m.toProcessor) (.memory seg offset)
          (← fetch (size.width p m.toProcessor)) : Exec H Unit) :=
    .fetchAfter h (if_pos hreg) fun value => testOperand_accesses hH p _ seg offset value
  refine .fetchOperand h ?_
  dsimp only
  split
  next hreg =>
    rw [OperandUse.operates, if_neg (by simp [hreg])]
    exact htest (by omega)
  next hreg =>
    rw [OperandUse.operates, if_neg (by simp [hreg])]
    exact htest (by omega)
  next hreg =>
    rw [OperandUse.operates, if_pos (by simp [hreg])]
    exact modifyOperand_accesses hH p _ seg offset (setsArithmetic_complement _) m₂
  next hreg =>
    rw [OperandUse.operates, if_pos (by simp [hreg])]
    exact modifyOperand_accesses hH p _ seg offset (setsArithmetic_negate _) m₂
  next hreg =>
    rw [OperandUse.operates, if_neg (by simp [hreg])]
    exact multiply_accesses hH p _ seg offset m₂
  next hreg =>
    rw [OperandUse.operates, if_neg (by simp [hreg])]
    exact signedMultiply_accesses hH p _ seg offset m₂
  next hreg =>
    rw [OperandUse.operates, if_neg (by simp [hreg])]
    exact divideBy_accesses hH p _ seg offset _ _ m₂
  next hcomplement hnegate _ _ _ =>
    rw [OperandUse.operates, if_neg (by simpa using ⟨hcomplement, hnegate⟩)]
    exact divideBy_accesses hH p _ seg offset _ _ m₂

theorem bitByRegister_accessesAt {op : BitOp} {w : Width}
    (h : m.TakesOperand p (.bitByRegister op) mode seg offset b m₁ m₂ m₃) :
    AccessesAt m ((OperandUse.bit op w (w.toInt (m.reg w mode.firstRegister))).accesses seg offset)
      (bitByRegister p w op) := by
  obtain ⟨eip, log, hm₂⟩ := h.moved₂
  refine .fetchOperand h (.after (checkLockOnBit_quiet p op _ m₂) fun _ m' hr => ?_)
  obtain ⟨eip', log', rfl⟩ := (checkLockOnBit_hasEffect p op _).moved rfl hr
  subst hm₂
  refine .of_run (b := m.reg w mode.firstRegister) rfl ⟨rfl, rfl⟩ ?_
  rw [unitPlace, unitOffset_eq]
  exact bitOperand_accesses hH w seg _ op _ _

theorem bitByImmediate_accessesAt {w : Width}
    (h : m.TakesOperand p .bitByImmediate mode seg offset b m₁ m₂ m₃) :
    AccessesAt m
      ((OperandUse.operates w.bytes (BitOp.ofBits (mode.reg.setWidth 2) ≠ .test)).accesses seg offset)
      (bitByImmediate p w) := by
  obtain ⟨eip, log, hm₁⟩ := h.moved₁
  obtain ⟨eip', log', hm₂⟩ := h.moved₂
  refine .of_run h.byte (by rw [hm₁]; exact ⟨rfl, rfl⟩) ?_
  rw [← h.mode_eq, OperandUse.accesses_operates_of_bit]
  refine .ite (Accesses.throwThen rfl m₁) ?_
  refine .of_run h.operand (by rw [hm₁, hm₂]; exact ⟨rfl, rfl⟩) (.fetchAfter h rfl fun k => ?_)
  exact .after (checkLockOnBit_quiet p _ _) fun _ => bitOperand_accesses hH w seg offset _ _

omit hH in
theorem isRegister_of_operand {m m' : Machine H}
    (hr : (operand p mode).run m = .ok (.memory seg offset) m') : mode.isRegister = false := by
  cases hmode : mode.isRegister with
  | false => rfl
  | true =>
    rw [operand, hmode, if_pos rfl] at hr
    cases hr

omit hH in
/-- The memory forms of the floating-point instructions have an operand in memory. -/
theorem ofMemory_memory (number reg : BitVec 3) :
    (match FloatInstruction.ofMemory number reg with
      | .ok instruction => instruction.hasMemoryOperand
      | .error fault => !fault.isSegmentFault) = true := by
  revert number reg
  decide +kernel

theorem escape_accessesAt {number : BitVec 3}
    (h : m.TakesOperand p (.escape number) mode seg offset b m₁ m₂ m₃) :
    AccessesAt m (((Instruction.escape number).use .byte m.toProcessor mode).accesses seg offset)
      (escape p number) := by
  have hmemory := ofMemory_memory number mode.reg
  obtain ⟨eip, log, hm₁⟩ := h.moved₁
  have hregister := isRegister_of_operand h.operand
  have hdecode : FloatInstruction.decode number mode =
      FloatInstruction.ofMemory number mode.reg := by
    rw [FloatInstruction.decode, hregister, if_neg Bool.false_ne_true]
  refine .of_run h.byte (by rw [hm₁]; exact ⟨rfl, rfl⟩) ?_
  dsimp only
  rw [← h.mode_eq, Instruction.use, hdecode]
  cases hform : FloatInstruction.ofMemory number mode.reg with
  | error f =>
    rw [hform] at hmemory
    exact Accesses.throw (Bool.not_eq_true' _ ▸ hmemory) m₁
  | ok instruction =>
    rw [hform] at hmemory
    have hplace : (memoryOperand p mode).run m₁ = .ok (seg, offset) m₂ := by
      rw [memoryOperand, run_bind_of_ok h.operand]
      rfl
    refine .andThen (runFloat_accessesAt hH hmemory hplace) fun _ => ?_
    exact .ite (.of_hasEffect (remember_hasEffect p number mode) rfl) (.pure ())

/-- An operand to be popped into is taken after the pop. -/
theorem popOperand_accessesAt {w : Width} {value : Dword} (hbyte : fetch8.run m = .ok b m₁)
    (hpop : (pop w).run m₁ = .ok value m₂)
    (hoperand : (operand p (.ofByte b)).run m₂ = .ok (.memory seg offset) m₃) :
    AccessesAt m ((OperandUse.writes w.bytes true).accesses seg offset) (popOperand p w) := by
  have hplace : AccessesAt m₁ ((OperandUse.writes w.bytes true).accesses seg offset) (do
      let value ← pop w
      let place ← operand p (.ofByte b)
      writeOperand w place value : Exec H Unit) :=
    .of_run hpop ((pop_hasEffect w).sameSegments hpop) (.of_run hoperand
      ((operand_hasEffect p _).sameSegments hoperand) (store_accesses hH true w seg offset value _))
  refine .of_run hbyte (fetch8_hasEffect.sameSegments hbyte) ?_
  refine .ite (Accesses.throwThen rfl m₁) (.after (checkLock_quiet p m₁) fun _ m' hr => ?_)
  obtain rfl := (checkLock_ends p m₁).of_ok hr
  exact hplace.keepingStack

/-- An instruction with an operand in memory accesses it as its use says. -/
theorem runInstruction_accessesAt (h : m.TakesOperand p i mode seg offset b m₁ m₂ m₃)
    (hi : i.takesMode = true) (hpop : i ≠ .popOperand)
    (hindirect : i = .indirectGroup → mode.reg.toNat < 2 ∨ 6 < mode.reg.toNat) :
    AccessesAt m ((i.use (i.width p m.toProcessor) m.toProcessor mode).accesses seg offset)
      (runInstruction p i) := by
  have hsize (size : Size) : (widthOf p size).run m = .ok (size.width p m.toProcessor) m := by
    cases size <;> rfl
  have hwidth : (operandWidth p).run m = .ok (p.operandWidth m.toProcessor) m := rfl
  have hsame := Processor.SameSegments.refl m.toProcessor
  cases i with
  | aluToOperand size op =>
    refine .of_run (hsize size) hsame (.fetchOperand h (Accesses.after (.view _) (fun b => ?_) m₂))
    exact aluOperand_accesses hH p _ seg offset op b
  | aluToRegister size op =>
    refine .of_run (hsize size) hsame (.fetchOperand h ?_)
    exact reading_accesses hH p _ seg offset (fun b => aluRegister_quiet _ op _ b) m₂
  | aluImmediate size short =>
    refine .of_run (hsize size) hsame (.fetchOperand h (.fetchAfter h rfl fun b => ?_))
    exact aluOperand_accesses hH p _ seg offset _ b
  | testRegister size =>
    refine .of_run (hsize size) hsame (.fetchOperand h (Accesses.after (.view _) (fun b => ?_) m₂))
    exact testOperand_accesses hH p _ seg offset b
  | incrementByte => exact incrementByte_accessesAt hH h
  | unaryGroup size => exact .of_run (hsize size) hsame (unaryGroup_accessesAt hH h)
  | multiplyRegister =>
    refine .of_run hwidth hsame (.fetchOperand h ?_)
    exact reading_accesses hH p _ seg offset (fun b => .after (.view _) fun a =>
      storeProduct_quiet _ _ a b) m₂
  | multiplyImmediate short =>
    refine .of_run hwidth hsame (.fetchOperand h (.fetchAfter h rfl fun value => ?_))
    exact reading_accesses hH p _ seg offset fun b => storeProduct_quiet _ _ b value
  | setCondition code =>
    refine .fetchOperand h (Accesses.after (checkLock_quiet p) (fun _ => ?_) m₂)
    exact .after (.view _) fun holds => store_accesses hH true .byte seg offset _
  | shiftGroup size count =>
    refine .of_run (hsize size) hsame (.fetchOperand h (.fetchAfter h rfl fun count => ?_))
    exact .after (checkLock_quiet p) fun _ =>
      shiftOperand_accesses hH _ seg offset ShiftOp.sameControl_apply
  | doubleShift direction count =>
    refine .of_run hwidth hsame (.fetchOperand h (.fetchAfter h rfl fun count => ?_))
    exact .after (checkLock_quiet p) fun _ => .after (.view _) fun fill =>
      shiftOperand_accesses hH _ seg offset sameControl_doubleShift
  | bitScan order =>
    refine .of_run hwidth hsame (.fetchOperand h (Accesses.after (checkLock_quiet p) (fun _ => ?_) m₂))
    exact .after (checkRepeatedScan_quiet p order) fun _ => scan_accesses hH _ seg offset order _
  | bitByRegister op => exact .of_run hwidth hsame (bitByRegister_accessesAt hH h)
  | bitByImmediate => exact .of_run hwidth hsame (bitByImmediate_accessesAt hH h)
  | popOperand => exact absurd rfl hpop
  | indirectGroup =>
    refine .of_run hwidth hsame (.fetchOperand h ?_)
    have hplain : mode.reg.toNat = 0 ∨ mode.reg.toNat = 1 ∨ mode.reg.toNat = 7 := by
      have hlt := mode.reg.isLt
      have hreg := hindirect rfl
      omega
    rcases hplain with hreg | hreg | hreg <;>
      simp only [Instruction.use, Instruction.indirectUse, indirectOperand, hreg]
    · exact modifyOperand_accesses hH p _ seg offset (setsArithmetic_increment _) m₂
    · exact modifyOperand_accesses hH p _ seg offset (setsArithmetic_decrement _) m₂
    · exact Accesses.throw rfl m₂
  | escape number => exact escape_accessesAt hH h
  | _ => cases hi

end Instructions

theorem beforeOperand_hasEffect (w : Width) (i : Instruction) :
    HasEffect ⟨[.stackPointer], some [], none⟩ (beforeOperand w i : Exec H Unit) :=
  .ite ((pop_hasEffect w).map fun _ => ()) (.pure _)

theorem afterOperand_hasEffect (w : Width) (mode : ModeByte) (i : Instruction) :
    HasEffect .reads (afterOperand w mode i : Exec H Unit) := by
  unfold afterOperand
  split
  · exact .andThen (fetchImmediate_hasEffect w _) fun _ => .pure _
  · exact .andThen (fetchImmediate_hasEffect w _) fun _ => .pure _
  · exact .ite (.andThen (fetch_hasEffect w) fun _ => .pure _) (.pure _)
  · exact .andThen (shiftCount_hasEffect _) fun _ => .pure _
  · exact .andThen (shiftCount_hasEffect _) fun _ => .pure _
  · exact .andThen (fetch_hasEffect .byte) fun _ => .pure _
  · exact .pure _

end Exec

/-! ## Steps -/

namespace OperandSite

variable (site : OperandSite)

/-- What the instruction does with its operand. -/
def use (s : Processor) : OperandUse := site.instruction.use site.width s site.mode

/-- The accesses of the instruction to its operand. -/
def accesses (s : Processor) : List SegmentAccess := (site.use s).accesses site.seg site.offset

/-- The target in the operand has been read, and to follow it ends in a fault. -/
def FailsToFollow (m : Machine H) (f : Fault) : Prop :=
  site.instruction = .indirectGroup ∧ ∃ log target m',
    (readTarget site.width site.seg site.offset site.mode).run
      { m with eip := site.next, log := log } = .ok target { m with eip := site.next, log := log } ∧
    (followTarget site.width site.mode target).run { m with eip := site.next, log := log } =
      .error f m'

end OperandSite

variable {m m₁ m₂ m₃ m₄ m₅ : Machine H} {site : OperandSite} {b : Byte}

/-- The machine takes an instruction with an operand in memory from the code: the opcode, the mode
byte, the operand and what follows it. -/
structure Machine.TakesSite (m : Machine H) (site : OperandSite) (b : Byte)
    (m₁ m₂ m₃ m₄ m₅ : Machine H) : Prop where
  fetches : m.Fetches site.markers site.instruction m₁
  takesMode : site.instruction.takesMode = true
  width_eq : site.width = site.instruction.width site.markers m₁.toProcessor
  byte : fetch8.run m₁ = .ok b m₂
  mode_eq : site.mode = .ofByte b
  before : (beforeOperand site.width site.instruction).run m₂ = .ok () m₃
  operand : (operand site.markers site.mode).run m₃ = .ok (.memory site.seg site.offset) m₄
  after : (afterOperand site.width site.mode site.instruction).run m₄ = .ok () m₅
  next_eq : site.next = m₅.eip

theorem Machine.exists_takesSite (h : m.operandSite? = some site) :
    ∃ b m₁ m₂ m₃ m₄ m₅, m.TakesSite site b m₁ m₂ m₃ m₄ m₅ := by
  obtain ⟨m', hrun⟩ := value?_eq_some_iff.1 (Option.join_eq_some_iff.1 h)
  rw [fetchSite, run_bind_eq_ok_iff] at hrun
  obtain ⟨decoded, m₁, hfetch, hrun⟩ := hrun
  have hmoved := (fetchInstruction_moves m).of_ok hfetch
  split at hrun
  next p i =>
    split at hrun
    next hmode =>
      rw [run_view_bind, run_bind_eq_ok_iff] at hrun
      obtain ⟨b, m₂, hbyte, hrun⟩ := hrun
      rw [run_bind_eq_ok_iff] at hrun
      obtain ⟨⟨⟩, m₃, hbefore, hrun⟩ := hrun
      rw [run_bind_eq_ok_iff] at hrun
      obtain ⟨place, m₄, hoperand, hrun⟩ := hrun
      cases place with
      | memory seg offset =>
        dsimp only at hrun
        rw [run_bind_eq_ok_iff] at hrun
        obtain ⟨⟨⟩, m₅, hafter, hrun⟩ := hrun
        cases hrun
        exact ⟨b, m₁, m₂, m₃, m₄, _, ⟨hfetch, hmoved⟩, hmode, rfl, hbyte, rfl, hbefore, hoperand,
          hafter, rfl⟩
      | register r => cases hrun
    next => cases hrun
  next => cases hrun

namespace Machine.TakesSite

theorem sameSegments₁ (h : m.TakesSite site b m₁ m₂ m₃ m₄ m₅) : m.SameSegments m₁.toProcessor := by
  obtain ⟨eip, log, rfl⟩ := h.fetches.moved
  exact ⟨rfl, rfl⟩

/-- What decides about accesses stays as it is until the operand is known. -/
theorem sameSegments₃ (h : m.TakesSite site b m₁ m₂ m₃ m₄ m₅) : m.SameSegments m₃.toProcessor :=
  (h.sameSegments₁.trans (fetch8_hasEffect.sameSegments h.byte)).trans
    ((beforeOperand_hasEffect _ _).sameSegments h.before)

/-- The operand of an instruction that does not pop. -/
theorem takesOperand (h : m.TakesSite site b m₁ m₂ m₃ m₄ m₅)
    (hpop : site.instruction ≠ .popOperand) :
    m₁.TakesOperand site.markers site.instruction site.mode site.seg site.offset b m₂ m₄ m₅ := by
  have hbefore := h.before
  rw [beforeOperand, if_neg hpop] at hbefore
  cases hbefore
  have hafter := h.after
  obtain ⟨eip, log, rfl⟩ := fetch8_hasEffect.moved rfl h.byte
  obtain ⟨eip', log', rfl⟩ := (operand_hasEffect _ _).moved rfl h.operand
  obtain ⟨eip'', log'', rfl⟩ := (afterOperand_hasEffect _ _ _).moved rfl hafter
  exact ⟨h.byte, h.mode_eq, h.operand, h.width_eq ▸ hafter, ⟨_, _, rfl⟩, ⟨_, _, rfl⟩, _, _, rfl⟩

/-- The use of the operand is known when the opcode is. -/
theorem use_eq (h : m.TakesSite site b m₁ m₂ m₃ m₄ m₅) :
    site.instruction.use (site.instruction.width site.markers m₁.toProcessor) m₁.toProcessor
      site.mode = site.use m.toProcessor := by
  obtain ⟨eip, log, hm₁⟩ := h.fetches.moved
  rw [← h.width_eq, OperandSite.use, hm₁]
  rfl

/-- An instruction that pops into memory. -/
theorem accessesAt_of_pops (hH : Host.Unsegmented H) (h : m.TakesSite site b m₁ m₂ m₃ m₄ m₅)
    (hi : site.instruction = .popOperand) :
    AccessesAt m₁ (site.accesses m.toProcessor) (runInstruction site.markers site.instruction) := by
  have hbefore := h.before
  have hoperand := h.operand
  rw [beforeOperand, if_pos hi] at hbefore
  obtain ⟨value, m', hpop, ⟨⟩⟩ := run_bind_eq_ok_iff.1 hbefore
  have hwidth : (operandWidth site.markers).run m₁ = .ok site.width m₁ := by
    rw [h.width_eq, hi]
    rfl
  rw [h.mode_eq] at hoperand
  rw [OperandSite.accesses, OperandSite.use, hi]
  exact .of_run hwidth (.refl _) (popOperand_accessesAt hH h.byte hpop hoperand)

/-- An instruction that follows a target in memory. -/
theorem ends_of_follows (hH : Host.Unsegmented H) (h : m.TakesSite site b m₁ m₂ m₃ m₄ m₅)
    (hi : site.instruction = .indirectGroup) (hlow : 2 ≤ site.mode.reg.toNat)
    (hhigh : site.mode.reg.toNat ≤ 6) :
    Ends (runInstruction site.markers site.instruction) m₁
      (fun _ _ => ∀ a ∈ site.accesses m.toProcessor, a.certain → a.Granted m.toProcessor)
      (fun f _ => f.isSegmentFault →
        (∃ a ∈ site.accesses m.toProcessor, ¬a.Granted m.toProcessor) ∨ site.FailsToFollow m f) := by
  have hwidth : (operandWidth site.markers).run m₁ = .ok site.width m₁ := by
    rw [h.width_eq, hi]
    rfl
  have htakes := h.takesOperand (by rw [hi]; nofun)
  -- nothing follows the operand in the code, so the next instruction stands behind it
  have hmoved : ∃ log, m₄ = { m with eip := site.next, log := log } := by
    have hafter := h.after
    rw [hi] at hafter
    cases hafter
    obtain ⟨eip, log, hm₁⟩ := h.fetches.moved
    obtain ⟨eip', log', hm₄⟩ := htakes.moved₂
    rw [h.next_eq, hm₄, hm₁]
    exact ⟨log', rfl⟩
  obtain ⟨log, rfl⟩ := hmoved
  have huse : site.accesses m.toProcessor =
      (Instruction.indirectUse site.width site.mode).accesses site.seg site.offset := by
    rw [OperandSite.accesses, OperandSite.use, hi]
    rfl
  have hsame : m.SameSegments { m with eip := site.next, log := log }.toProcessor := ⟨rfl, rfl⟩
  rw [huse, hi]
  refine .of_run hwidth (.of_run htakes.fetchOperand ?_)
  refine (indirectOperand_follows _ _ _ _ hlow hhigh hH _).mono (fun _ _ hgranted a ha hc => ?_)
    fun f m' hdenied hsegment => ?_
  · exact (hsame.granted_iff a).1 (hgranted a ha hc)
  · refine (hdenied hsegment).imp (fun ⟨a, ha, hn⟩ => ⟨a, ha, ?_⟩) fun ⟨target, hread, hfollow⟩ => ?_
    · exact fun hg => hn ((hsame.granted_iff a).2 hg)
    · exact ⟨hi, log, target, m', hread, hfollow⟩

/-- The instruction at a site accesses its operand as the use says.  If it ends in a fault of a
segment without a denied access to the operand, it has read a target and cannot follow it. -/
theorem ends (hH : Host.Unsegmented H) (h : m.TakesSite site b m₁ m₂ m₃ m₄ m₅) :
    Ends (runInstruction site.markers site.instruction) m₁
      (fun _ _ => ∀ a ∈ site.accesses m.toProcessor, a.certain → a.Granted m.toProcessor)
      (fun f _ => f.isSegmentFault →
        (∃ a ∈ site.accesses m.toProcessor, ¬a.Granted m.toProcessor) ∨ site.FailsToFollow m f) := by
  by_cases hfollows : site.instruction = .indirectGroup ∧
      2 ≤ site.mode.reg.toNat ∧ site.mode.reg.toNat ≤ 6
  · obtain ⟨hi, hlow, hhigh⟩ := hfollows
    exact h.ends_of_follows hH hi hlow hhigh
  · have haccesses : AccessesAt m₁ (site.accesses m.toProcessor)
        (runInstruction site.markers site.instruction) := by
      by_cases hpop : site.instruction = .popOperand
      · exact h.accessesAt_of_pops hH hpop
      · rw [OperandSite.accesses, ← h.use_eq]
        refine runInstruction_accessesAt hH (h.takesOperand hpop) h.takesMode hpop fun hi => ?_
        have hreg : ¬(2 ≤ site.mode.reg.toNat ∧ site.mode.reg.toNat ≤ 6) := fun h => hfollows ⟨hi, h⟩
        omega
    exact (haccesses.ends_sameSegments h.sameSegments₁).mono (fun _ _ h' => h'.2)
      fun f _ hf hsegment => .inl (hf hsegment)

end Machine.TakesSite

/-- An instruction makes the accesses that belong to the use of its operand, and no others: they
have been granted when it is completed, and one of them was denied when it ends in a fault of a
segment, unless it cannot follow a target that it has read.  With 16-bit addresses the offset of
the operand is below 64 KiB.  So are all offsets where accesses start, but for the unit of a bit
and the selector of a far pointer, whose offsets are sums that are not cut to 16 bits. -/
theorem Machine.operandSite_step (hH : Host.Unsegmented H) (m : Machine H) {site : OperandSite}
    (h : m.operandSite? = some site) :
    (site.markers.address32 m.toProcessor = false → site.offset.toNat < 2 ^ 16 ∧
      ((∀ a ∈ site.accesses m.toProcessor, a.start.toNat < 2 ^ 16) ↔
        ¬(site.use m.toProcessor).Leaves site.offset)) ∧
    (m.step.1 = .completed →
      ∀ a ∈ site.accesses m.toProcessor, a.certain → a.Granted m.toProcessor) ∧
    ∀ f, m.step.1 = .fault f → f.isSegmentFault →
      (∃ a ∈ site.accesses m.toProcessor, ¬a.Granted m.toProcessor) ∨ site.FailsToFollow m f := by
  obtain ⟨b, m₁, m₂, m₃, m₄, m₅, htakes⟩ := exists_takesSite h
  have hends := htakes.ends hH
  refine ⟨fun hnarrow => ?_, fun hdone => ?_, fun f hfault => ?_⟩
  · have hoffset := operand_lt (htakes.sameSegments₃.address32_eq _ ▸ hnarrow) htakes.operand
    exact ⟨hoffset, OperandUse.start_lt_iff hoffset (Instruction.fits_use _ _ _ _)⟩
  · obtain ⟨m₁', m', hfetch, hrun, -⟩ := exists_run_of_completed htakes.fetches.instruction? hdone
    cases hfetch.run.symm.trans htakes.fetches.run
    exact hends.of_ok hrun
  · obtain ⟨m₁', m', log, hfetch, hrun, -⟩ := exists_run_of_fault htakes.fetches.instruction? hfault
    cases hfetch.run.symm.trans htakes.fetches.run
    exact hends.of_error hrun

/-- A machine in real mode with some code at offset zero, and with a value in a register. -/
def Machine.addressing (code : Array UInt8) (r : Reg) (value : Dword) : Machine Ram :=
  let m := Machine.initial ⟨⟨code⟩, none, 0, #[]⟩ {}
  { m with
    regs := (m.setReg .word r value).regs
    eip := 0
    segs := { Segments.initial with cs := .realMode 0 false } }

/-- With the greatest number a register can hold, the unit of the bit is inside. -/
theorem Machine.operandSite_step_addressing :
    (⟨.read, .ds, 0xFFE, 2, true⟩ : SegmentAccess).Granted
        (addressing #[0x0F, 0xA3, 0x07] Reg.eax 0x7FFF).toProcessor ∧
      ¬(OperandUse.bit .test .word 0x7FFF).Leaves 0 := by
  let site : OperandSite := ⟨{ start := 0 }, .bitByRegister .test, .word, .ofByte 7, .ds, 0, 3⟩
  have hsite : (addressing #[0x0F, 0xA3, 0x07] Reg.eax 0x7FFF).operandSite? = some site := by
    decide +kernel
  have hcompleted : (addressing #[0x0F, 0xA3, 0x07] Reg.eax 0x7FFF).step.1 = .completed := by
    decide +kernel
  have huse : site.use (addressing #[0x0F, 0xA3, 0x07] Reg.eax 0x7FFF).toProcessor =
      .bit .test .word 0x7FFF := by decide +kernel
  have haccesses : (OperandUse.bit .test .word 0x7FFF).accesses .ds 0 =
      [⟨.read, .ds, 0xFFE, 2, true⟩] := by decide
  obtain ⟨hstarts, hgranted, -⟩ := operandSite_step Ram.unsegmented _ hsite
  rw [OperandSite.accesses, huse, haccesses] at hstarts hgranted
  refine ⟨hgranted hcompleted _ (List.mem_singleton_self _) rfl, ?_⟩
  exact (hstarts (by decide +kernel)).2.1 (List.forall_mem_singleton.2 (by decide))

/-- An access of an instruction with 16-bit addresses starts outside the first 64 KiB.  The step
ends in a fault, though the access would be granted at the offset cut to 16 bits. -/
structure Machine.Overruns (m : Machine H) (site : OperandSite) (a : SegmentAccess) : Prop where
  starts : m.operandSite? = some site
  narrow : site.markers.address32 m.toProcessor = false
  mem : a ∈ site.accesses m.toProcessor
  outside : 2 ^ 16 ≤ a.start.toNat
  granted : { a with start := Width.word.truncate a.start }.Granted m.toProcessor
  fault : m.step.1 = .fault (.generalProtection 0)

/-- The bit below the operand at zero, and the far pointer with its selector at the end of the
segment. -/
theorem Machine.overruns_addressing :
    (addressing #[0x0F, 0xA3, 0x07] Reg.eax 0xFFFF).Overruns
      ⟨{ start := 0 }, .bitByRegister .test, .word, .ofByte 7, .ds, 0, 3⟩
      ⟨.read, .ds, 0xFFFFFFFE, 2, true⟩ ∧
    (addressing #[0xFF, 0x2F] Reg.ebx 0xFFFE).Overruns
      ⟨{ start := 0 }, .indirectGroup, .word, .ofByte 0x2F, .ds, 0xFFFE, 2⟩
      ⟨.read, .ds, 0x10000, 2, true⟩ := by
  constructor
  · exact ⟨by decide +kernel, by decide +kernel, by decide +kernel, by decide,
      ⟨fun hu => absurd hu (by decide +kernel), by decide +kernel⟩, by decide +kernel⟩
  · exact ⟨by decide +kernel, by decide +kernel, by decide +kernel, by decide,
      ⟨fun hu => absurd hu (by decide +kernel), by decide +kernel⟩, by decide +kernel⟩

end Ia32
