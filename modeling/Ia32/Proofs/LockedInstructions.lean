import Ia32.Host.Ram
import Ia32.Proofs.Openings

/-!
# Locked instructions

A lock marker is allowed on an instruction that changes an operand in memory by
a single read and write: the two-operand operations but comparison, complements,
negations, increments and decrements, and the bit operations that change the
bit.  Every other instruction refuses the lock before it changes anything, though
it may have read its operands by then.

There is no check in one place.  Each instruction checks for itself, so that
refusal is proved instruction by instruction (`Rejects`), and the mode byte
decides for those that may be locked (`LocksOnly`).
-/

namespace Ia32

open Host Exec

/-! ## Instructions that may be locked -/

/-- The opcodes of one byte that may be locked, by the first field of the mode byte. -/
def lockableOpcode (opcode : Byte) (field : BitVec 3) : Bool :=
  opcode ∈ [0x00, 0x01, 0x08, 0x09, 0x10, 0x11, 0x18, 0x19, 0x20, 0x21, 0x28, 0x29, 0x30, 0x31]
    || opcode ∈ [0x80, 0x81, 0x82, 0x83] && field ≠ 7
    || opcode ∈ [0xF6, 0xF7] && (field = 2 || field = 3)
    || opcode ∈ [0xFE, 0xFF] && (field = 0 || field = 1)

/-- The opcodes behind `0F` that may be locked, by the first field of the mode byte. -/
def lockableExtended (opcode : Byte) (field : BitVec 3) : Bool :=
  opcode ∈ [0xAB, 0xB3, 0xBB] || opcode = 0xBA && 5 ≤ field

/-- Whether an instruction may be locked when its operand is in memory, by the first field of the
mode byte. -/
def Instruction.mayLock (field : BitVec 3) : Instruction → Bool
  | .aluToOperand _ op => op.writesBack
  | .aluImmediate _ _ => (AluOp.ofBits field).writesBack
  | .unaryGroup _ => field.toNat = 2 || field.toNat = 3
  | .incrementByte | .indirectGroup => field.toNat = 0 || field.toNat = 1
  | .bitByRegister op => op ≠ .test
  | .bitByImmediate => 5 ≤ field
  | _ => false

/-- All opcodes of one byte, with all fields of a mode byte. -/
theorem Instruction.mayLock_decode : ∀ (opcode : Byte) (field : BitVec 3),
    (decode opcode).toOption.any (mayLock field) = lockableOpcode opcode field := by
  decide +kernel

theorem Instruction.mayLock_decodeExtended : ∀ (opcode : Byte) (field : BitVec 3),
    (decodeExtended opcode).toOption.any (mayLock field) = lockableExtended opcode field := by
  decide +kernel

variable {H : Type}

namespace Machine

variable [Host H]

/-- The mode byte at the instruction pointer. -/
def modeByte? (m : Machine H) : Option ModeByte := (m.codeByte? m.eip).map .ofByte

/-- An instruction stands in the code that may be locked. -/
inductive LockableAt (m : Machine H) (offset : Dword) : Prop where
  | one {opcode b : Byte} :
    m.HoldsCode offset [opcode, b] →
    (ModeByte.ofByte b).isRegister = false →
    lockableOpcode opcode (ModeByte.ofByte b).reg = true →
    LockableAt m offset
  | two {opcode b : Byte} :
    m.HoldsCode offset [0x0F, opcode, b] →
    (ModeByte.ofByte b).isRegister = false →
    lockableExtended opcode (ModeByte.ofByte b).reg = true →
    LockableAt m offset

end Machine

namespace Exec

variable {α β : Type} {m m₁ m₂ : Machine H} {p : Prefixes}

/-! ## Refusal -/

/-- A machine differs from another one in the instruction pointer and the log alone. -/
def Moved (m m' : Machine H) : Prop := ∃ eip log, m' = { m with eip := eip, log := log }

theorem Moved.trans (h : Moved m m₁) (h' : Moved m₁ m₂) : Moved m m₂ := by
  obtain ⟨eip, log, rfl⟩ := h
  obtain ⟨eip', log', rfl⟩ := h'
  exact ⟨eip', log', rfl⟩

/-- A program faults on every machine, and moves nothing but the instruction pointer and the
log. -/
def Rejects (x : Exec H α) : Prop :=
  ∀ m, Ends x m (fun _ _ => False) fun _ m₁ => Moved m m₁

namespace Rejects

theorem throw (f : Fault) : Rejects (MonadExcept.throw f : Exec H α) :=
  fun m => ⟨m.eip, m.log, rfl⟩

/-- What is rejected first is not run any further. -/
theorem bind {x : Exec H β} (hx : Rejects x) (k : β → Exec H α) : Rejects (x >>= k) := by
  intro m
  rw [ends_bind]
  exact (hx m).mono (fun _ _ h => h.elim) fun _ _ h => h

theorem ite {c : Prop} [Decidable c] {x y : Exec H α} (hx : c → Rejects x)
    (hy : ¬c → Rejects y) : Rejects (if c then x else y) := by
  split
  next h => exact hx h
  next h => exact hy h

/-- An instruction that may not be locked is rejected at this check. -/
theorem lock (hp : p.lock = true) : Rejects (checkLock p : Exec H Unit) := by
  rw [checkLock, if_pos hp]
  exact throw _

/-- A register may not be locked. -/
theorem lockOn (hp : p.lock = true) {place : Operand} (hplace : place.isMemory = false) :
    Rejects (checkLockOn p place : Exec H Unit) := by
  rw [checkLockOn, hplace]
  exact lock hp

end Rejects

variable [Host H]

/-- A program that only checks moves nothing but the instruction pointer and the log. -/
theorem HasEffect.moves {e : Effect} [he : e.OnlyChecks] {x : Exec H α} (hx : HasEffect e x)
    (m : Machine H) :
    Ends x m (fun _ m₁ => Moved m m₁) (fun _ m₁ => Moved m m₁) := by
  have hall : CoversSegments (fun _ _ _ => True) m := fun _ _ _ _ _ => trivial
  refine (hx.weaken he.within hall).mono (fun _ _ h => h.exists_moved) fun f m₁ h => ?_
  obtain ⟨S, hS, ha⟩ := h.fault
  cases hS
  exact ha.exists_moved

namespace Rejects

/-- A program that checks first and then refuses. -/
theorem after {e : Effect} [e.OnlyChecks] {x : Exec H β} {k : β → Exec H α} (hx : HasEffect e x)
    (hk : ∀ b, Rejects (k b)) : Rejects (x >>= k) := by
  intro m
  rw [ends_bind]
  refine (hx.moves m).mono (fun b m₁ h₁ => ?_) fun _ _ h => h
  exact (hk b m₁).mono (fun _ _ h => h) fun _ _ h => h₁.trans h

theorem view {f : Processor → β} {k : β → Exec H α} (hk : ∀ b, Rejects (k b)) :
    Rejects (Exec.view f >>= k) := after (e := .silent) (.view f) hk

/-- The operand of a mode byte is in memory unless the mode byte names a register. -/
theorem operand {mb : ModeByte} {k : Operand → Exec H α}
    (hk : ∀ place, place.isMemory = !mb.isRegister → Rejects (k place)) :
    Rejects (Exec.operand p mb >>= k) := by
  cases hmb : mb.isRegister with
  | true =>
    simp only [Exec.operand, hmb, if_true, pure_bind]
    exact hk (.register _) (by rw [hmb]; rfl)
  | false =>
    have hplace : ∀ address : Seg × Dword,
        Rejects (k (.memory (p.dataSegment address.1) address.2)) :=
      fun address => hk _ (by rw [hmb]; rfl)
    simp only [Exec.operand, hmb, Bool.false_eq_true, if_false, bind_assoc]
    refine view fun wide => ?_
    split <;> simp only [bind_assoc, pure_bind]
    · exact after (address32_hasEffect mb.mode mb.rm) hplace
    · exact after (address16_hasEffect mb.mode mb.rm) hplace

end Rejects

/-! ## Instructions that refuse a lock -/

section Locked

variable (hp : p.lock = true)
include hp

/-- A comparison does not write, and so may not be locked on memory either. -/
theorem aluOperand_rejects {op : AluOp} {place : Operand}
    (h : op.writesBack = true → place.isMemory = false) (w : Width) (b : Dword) :
    Rejects (aluOperand p w op place b : Exec H Unit) := by
  cases place with
  | register r => exact .bind (.lock hp) _
  | memory seg offset =>
    have hop : op.writesBack = false := by
      cases hw : op.writesBack with
      | false => rfl
      | true => cases h hw
    refine .after (load_observes w seg offset).hasEffect fun a => ?_
    simp only [hop, Bool.not_false, if_true]
    exact .bind (.lock hp) _

theorem modifyOperand_rejects {place : Operand} (h : place.isMemory = false) (w : Width)
    (f : Dword → Dword → Dword × Dword) : Rejects (modifyOperand p w place f : Exec H Unit) :=
  .bind (.lockOn hp h) _

theorem testOperand_rejects (w : Width) (place : Operand) (b : Dword) :
    Rejects (testOperand p w place b : Exec H Unit) := by
  cases place with
  | register r => exact .bind (.lock hp) _
  | memory seg offset =>
    exact .after (load_observes w seg offset).hasEffect fun a => .bind (.lock hp) _

omit [Host H] in
/-- A test of a bit does not write. -/
theorem checkLockOnBit_rejects {op : BitOp} {place : Operand}
    (h : op ≠ .test → place.isMemory = false) :
    Rejects (checkLockOnBit p op place : Exec H Unit) := by
  unfold checkLockOnBit
  split
  · exact .lock hp
  next hop => exact .lockOn hp (h hop)

theorem portNumber_rejects (source : PortSource) : Rejects (portNumber p source : Exec H Word) := by
  cases source with
  | immediate => exact .after fetch8_hasEffect fun b => .bind (.lock hp) _
  | register => exact .bind (.lock hp) _

theorem fetchFarTarget_rejects (w : Width) : Rejects (fetchFarTarget p w : Exec H FarTarget) := by
  refine .after (fetch_hasEffect w) fun offset => .after (fetch_hasEffect .word) fun selector => ?_
  exact .bind (.lock hp) _

theorem farIndirect_rejects (w : Width) (transfer : Transfer) (place : Operand) :
    Rejects (farIndirect p w transfer place : Exec H Unit) := by
  refine .bind ?_ _
  exact .after (memoryPlace_hasEffect place) fun _ => .bind (.lock hp) _

/-- No instruction of the unit may be locked: each checks this before it does anything else. -/
theorem runFloat_rejects (mb : ModeByte) (i : FloatInstruction) :
    Rejects (runFloat p mb i : Exec H Unit) := by
  have hlock : Rejects (checkAvailable p : Exec H Unit) := .bind (.lock hp) _
  have hready : Rejects (checkReady p : Exec H Unit) := .bind hlock _
  cases i with
  | nothing => exact hready
  | storeControl | storeStatus | statusToAccumulator | save | initState | clearExceptions =>
    exact .bind hlock _
  | _ => exact .bind hready _

theorem escape_rejects (number : BitVec 3) : Rejects (escape p number : Exec H Unit) := by
  refine .after fetch8_hasEffect fun b => ?_
  dsimp only
  split
  next fault _ => exact .throw fault
  next i _ => exact .bind (runFloat_rejects hp (.ofByte b) i) _

end Locked

/-! ## Instructions that may be locked -/

/-- The mode byte at the instruction pointer names a place in memory and allows a lock. -/
def AllowsLock (m : Machine H) (allowed : BitVec 3 → Bool) : Prop :=
  ∃ mb, m.modeByte? = some mb ∧ mb.isRegister = false ∧ allowed mb.reg = true

/-- A program refuses unless the mode byte at the instruction pointer allows a lock. -/
def LocksOnly (allowed : BitVec 3 → Bool) (x : Exec H α) : Prop :=
  ∀ m, ¬AllowsLock m allowed → Ends x m (fun _ _ => False) fun _ m₁ => Moved m m₁

namespace LocksOnly

variable {allowed : BitVec 3 → Bool}

/-- What is rejected always is rejected where it is not allowed. -/
theorem of_rejects {x : Exec H α} (hx : Rejects x) : LocksOnly allowed x := fun m _ => hx m

theorem view {f : Processor → β} {k : β → Exec H α} (hk : ∀ b, LocksOnly allowed (k b)) :
    LocksOnly allowed (Exec.view f >>= k) := fun m hm => hk (f m.toProcessor) m hm

theorem widthOf {size : Size} {k : Width → Exec H α} (hk : ∀ w, LocksOnly allowed (k w)) :
    LocksOnly allowed (Exec.widthOf p size >>= k) := by
  cases size with
  | byte => exact hk .byte
  | full => exact view hk

/-- A program that takes the mode byte and refuses unless it allows a lock. -/
theorem fetch8 {k : Byte → Exec H α}
    (hk : ∀ b, ((ModeByte.ofByte b).isRegister = false → allowed (ModeByte.ofByte b).reg = false) →
      Rejects (k b)) : LocksOnly allowed (Exec.fetch8 >>= k) := by
  intro m hm
  rw [ends_bind]
  refine (fetch8_ends m).mono (fun b m₁ h₁ => ?_) fun _ m₁ h₁ => ⟨m.eip, m.log, h₁⟩
  obtain ⟨hb, rfl⟩ := h₁
  have hmode : m.modeByte? = some (.ofByte b) := by rw [Machine.modeByte?, hb, Option.map_some]
  have hno : (ModeByte.ofByte b).isRegister = false → allowed (ModeByte.ofByte b).reg = false := by
    intro hmem
    by_contra hallowed
    exact hm ⟨_, hmode, hmem, by simpa using hallowed⟩
  refine (hk b hno _).mono (fun _ _ h => h) fun _ _ h => ?_
  exact .trans ⟨m.eip + 1, m.log, rfl⟩ h

/-- An operand is a register when its mode byte would allow a lock in memory and does not. -/
theorem not_isMemory {mb : ModeByte} {place : Operand} {may : Bool}
    (hplace : place.isMemory = !mb.isRegister) (hno : mb.isRegister = false → may = false)
    (hmay : may = true) : place.isMemory = false := by
  cases hr : mb.isRegister with
  | true => rw [hplace, hr, Bool.not_true]
  | false =>
    rw [hno hr] at hmay
    cases hmay

/-- A program that takes an operand and refuses unless the mode byte allows a lock. -/
theorem fetchOperand {k : ModeByte × Operand → Exec H α}
    (hk : ∀ mb place, (allowed mb.reg = true → place.isMemory = false) → Rejects (k (mb, place))) :
    LocksOnly allowed (Exec.fetchOperand p >>= k) := by
  have hseq : Exec.fetchOperand p >>= k = Exec.fetch8 >>= fun b =>
      operand p (.ofByte b) >>= fun place => k (.ofByte b, place) := by
    simp only [Exec.fetchOperand, bind_assoc, pure_bind]
  rw [hseq]
  exact fetch8 fun b hno => .operand fun place hplace => hk _ place (not_isMemory hplace hno)

end LocksOnly

section Locked

variable (hp : p.lock = true)
include hp

theorem aluToOperand_locks (w : Width) (op : AluOp) :
    LocksOnly (fun _ => op.writesBack) (aluToOperand p w op : Exec H Unit) :=
  .fetchOperand fun _ _ hplace => .view fun b => aluOperand_rejects hp hplace w b

/-- The operation stands in the mode byte, so that the byte decides. -/
theorem aluImmediate_locks (w : Width) (short : Bool) :
    LocksOnly (fun field => (AluOp.ofBits field).writesBack)
      (aluImmediate p w short : Exec H Unit) := by
  refine .fetchOperand fun mb place hplace => ?_
  exact .after (fetchImmediate_hasEffect w short) fun b => aluOperand_rejects hp hplace w b

/-- Both members of the group may be locked. -/
theorem incrementByte_locks :
    LocksOnly (fun field => field.toNat = 0 || field.toNat = 1)
      (incrementByte p : Exec H Unit) := by
  refine .fetchOperand fun mb place hplace => ?_
  dsimp only
  split
  next h => exact modifyOperand_rejects hp (hplace (by simp [h])) _ _
  next h => exact modifyOperand_rejects hp (hplace (by simp [h])) _ _
  next => exact .throw _

/-- Complement and negation may be locked, products and quotients may not. -/
theorem unaryGroup_locks (w : Width) :
    LocksOnly (fun field => field.toNat = 2 || field.toNat = 3) (unaryGroup p w : Exec H Unit) := by
  refine .fetchOperand fun mb place hplace => ?_
  dsimp only
  split
  next => exact .after (fetch_hasEffect w) fun b => testOperand_rejects hp w place b
  next => exact .after (fetch_hasEffect w) fun b => testOperand_rejects hp w place b
  next h => exact modifyOperand_rejects hp (hplace (by simp [h])) _ _
  next h => exact modifyOperand_rejects hp (hplace (by simp [h])) _ _
  all_goals exact .bind (.lock hp) _

/-- Of this group the increment and the decrement may be locked. -/
theorem indirectGroup_locks (w : Width) :
    LocksOnly (fun field => field.toNat = 0 || field.toNat = 1)
      (indirectGroup p w : Exec H Unit) := by
  refine .fetchOperand fun mb place hplace => ?_
  dsimp only [indirectOperand]
  split
  next h => exact modifyOperand_rejects hp (hplace (by simp [h])) _ _
  next h => exact modifyOperand_rejects hp (hplace (by simp [h])) _ _
  next => exact .bind (.lock hp) _
  next => exact farIndirect_rejects hp w .call place
  next => exact .bind (.lock hp) _
  next => exact farIndirect_rejects hp w .jump place
  next => exact .bind (.lock hp) _
  next => exact .throw _

theorem bitByRegister_locks (w : Width) (op : BitOp) :
    LocksOnly (fun _ => op ≠ .test) (bitByRegister p w op : Exec H Unit) := by
  refine .fetchOperand fun mb place hplace => .bind ?_ _
  exact checkLockOnBit_rejects hp fun hop => hplace (by simpa using hop)

/-- All but the test, whose field is the least that is defined. -/
theorem bitByImmediate_locks (w : Width) :
    LocksOnly (fun field => 5 ≤ field) (bitByImmediate p w : Exec H Unit) := by
  have hchanges : ∀ field : BitVec 3, ¬field < 4 → BitOp.ofBits (field.setWidth 2) ≠ .test →
      5 ≤ field := by decide
  refine .fetch8 fun b hno => .ite (fun _ => .bind (.throw _) _) fun hb => ?_
  refine .operand fun place hplace => .after (fetch_hasEffect .byte) fun k => .bind ?_ _
  refine checkLockOnBit_rejects hp fun hop => ?_
  exact LocksOnly.not_isMemory hplace hno (by simpa using hchanges _ hb hop)

/-- A locked instruction refuses unless the mode byte behind its opcode allows the lock. -/
theorem runInstruction_locks (i : Instruction) :
    LocksOnly (i.mayLock ·) (runInstruction p i : Exec H Unit) := by
  cases i with
  | aluToOperand size op => exact .widthOf fun w => aluToOperand_locks hp w op
  | aluImmediate size short => exact .widthOf fun w => aluImmediate_locks hp w short
  | unaryGroup size => exact .widthOf fun w => unaryGroup_locks hp w
  | incrementByte => exact incrementByte_locks hp
  | indirectGroup => exact .view fun w => indirectGroup_locks hp w
  | bitByRegister op => exact .view fun w => bitByRegister_locks hp w op
  | bitByImmediate => exact .view fun w => bitByImmediate_locks hp w
  | changeFlag | swapBytes | wait => exact .of_rejects (.bind (.lock hp) _)
  | pushRegister | popRegister | pushAll | popAll | jump | jumpIf | ret | retFar =>
    exact .of_rejects (.view fun w => .bind (.lock hp) _)
  | compareStrings size | scanString size =>
    exact .widthOf fun w => .of_rejects (.bind (.lock hp) _)
  | incrementRegister r | decrementRegister r =>
    exact .of_rejects (.view fun w => modifyOperand_rejects hp rfl w _)
  | aluToRegister size op =>
    refine .widthOf fun w => .of_rejects ?_
    exact .after (fetchOperand_hasEffect p) fun _ => .bind (.lock hp) _
  | multiplyRegister | bitScan =>
    refine .of_rejects (.view fun w => ?_)
    exact .after (fetchOperand_hasEffect p) fun _ => .bind (.lock hp) _
  | setCondition code =>
    exact .of_rejects (.after (fetchOperand_hasEffect p) fun _ => .bind (.lock hp) _)
  | testRegister size =>
    refine .widthOf fun w => .of_rejects (.after (fetchOperand_hasEffect p) fun operand => ?_)
    exact .view fun b => testOperand_rejects hp w operand.2 b
  | aluAccumulator size | testAccumulator size =>
    exact .widthOf fun w => .of_rejects (.after (fetch_hasEffect w) fun _ => .bind (.lock hp) _)
  | multiplyImmediate short =>
    refine .of_rejects (.view fun w => .after (fetchOperand_hasEffect p) fun _ => ?_)
    exact .after (fetchImmediate_hasEffect w short) fun _ => .bind (.lock hp) _
  | shiftGroup size count =>
    refine .widthOf fun w => .of_rejects (.after (fetchOperand_hasEffect p) fun _ => ?_)
    exact .after (shiftCount_hasEffect count) fun _ => .bind (.lock hp) _
  | doubleShift direction count =>
    refine .of_rejects (.view fun w => .after (fetchOperand_hasEffect p) fun _ => ?_)
    exact .after (shiftCount_hasEffect count) fun _ => .bind (.lock hp) _
  | pushImmediate short =>
    refine .of_rejects (.view fun w => ?_)
    exact .after (fetchImmediate_hasEffect w short) fun _ => .bind (.lock hp) _
  | popOperand =>
    refine .of_rejects (.view fun w => .after fetch8_hasEffect fun b => ?_)
    exact .ite (fun _ => .bind (.throw _) _) fun _ => .bind (.lock hp) _
  | input size port | output size port =>
    exact .widthOf fun w => .of_rejects (.bind (portNumber_rejects hp port) _)
  | inputString size | outputString size =>
    exact .widthOf fun w => .of_rejects (.bind (portNumber_rejects hp .register) _)
  | loop | jumpIfCounterZero =>
    refine .of_rejects (.view fun w => ?_)
    exact .after fetchSigned8_hasEffect fun _ => .bind (.lock hp) _
  | call =>
    refine .of_rejects (.view fun w => ?_)
    exact .after (fetchDistance_hasEffect w false) fun _ => .bind (.lock hp) _
  | retReleasing | retFarReleasing =>
    exact .of_rejects (.view fun w => .after fetchReleased_hasEffect fun _ => .bind (.lock hp) _)
  | far transfer => exact .of_rejects (.view fun w => .bind (fetchFarTarget_rejects hp w) _)
  | escape number => exact .of_rejects (escape_rejects hp number)

end Locked

end Exec

/-! ## Steps -/

variable [Host H] {m m₁ : Machine H} {p : Prefixes} {bs : List Byte} {opcode : Byte}

namespace Machine

/-- An instruction whose mode byte allows a lock stands in the code. -/
theorem Opens.lockableAt (h : m.Opens bs opcode p) {p' : Prefixes} {i : Instruction}
    (hf : m.Fetches p' i m₁) (ha : AllowsLock m₁ i.mayLock) :
    m.LockableAt (m.eip + BitVec.ofNat 32 bs.length) := by
  obtain ⟨mb, hmode, hmem, hallowed⟩ := ha
  obtain ⟨eip, log, rfl⟩ := hf.moved
  have hopcode := (holdsCode_append.mp h.holds).2.1
  have hnext : m.eip + BitVec.ofNat 32 (bs.length + 1) =
      m.eip + BitVec.ofNat 32 bs.length + 1 := by
    rw [BitVec.ofNat_add]
    bv_omega
  obtain ⟨b, hb, rfl⟩ := Option.map_eq_some_iff.mp hmode
  obtain ⟨-, ⟨-, hdecode, heip⟩ | ⟨rfl, second, hsecond, hdecode, heip⟩⟩ := h.fetches_cases hf
  · have hlock := Instruction.mayLock_decode opcode (ModeByte.ofByte b).reg
    rw [hdecode] at hlock
    refine .one ⟨hopcode, ?_, trivial⟩ hmem (hlock.symm.trans hallowed)
    rw [← hnext, ← heip]
    exact hb
  · have hlock := Instruction.mayLock_decodeExtended second (ModeByte.ofByte b).reg
    rw [hdecode] at hlock
    refine .two ⟨hopcode, ?_, ?_, trivial⟩ hmem (hlock.symm.trans hallowed)
    · rw [← hnext]
      exact hsecond
    · rw [← hnext, ← heip]
      exact hb

/-- An instruction with a lock marker, wherever this one stands among others, is completed only if
it may be locked.  Otherwise the step faults and nothing but the log has changed. -/
theorem step_of_locked (hlock : 0xF0 ∈ bs) (hmarkers : ∀ b ∈ bs, b ∈ markerBytes)
    (hopcode : opcode ∉ markerBytes) (hcode : m.HoldsCode m.eip (bs ++ [opcode])) :
    (m.step.1 = .completed → m.LockableAt (m.eip + BitVec.ofNat 32 bs.length)) ∧
      (¬m.LockableAt (m.eip + BitVec.ofNat 32 bs.length) →
        ∃ f log, m.step = (.fault f, { m with log := log })) := by
  obtain ⟨p, hp⟩ := Prefixes.exists_extendAll? { start := m.eip } hmarkers
  have hopens : m.Opens bs opcode p := ⟨hcode, hp, hopcode⟩
  have hlocked : p.lock = true := by
    rw [Prefixes.lock_of_extendAll? hp]
    simpa using hlock
  have hrefused : ¬m.LockableAt (m.eip + BitVec.ofNat 32 bs.length) →
      ∃ f log, m.step = (.fault f, { m with log := log }) := by
    intro hno
    have hnever := hopens.step_ne_never
    have hruns := m.step_runs
    generalize hstep : m.step = result at hnever hruns ⊢
    obtain ⟨ending, m'⟩ := result
    cases hruns with
    | completed hf hr =>
      obtain ⟨rfl, -⟩ := hopens.fetches_cases hf
      have hlocks := runInstruction_locks hlocked _ _ fun ha => hno (hopens.lockableAt hf ha)
      exact (hlocks.of_ok hr).elim
    | fault hf hr =>
      obtain ⟨rfl, -⟩ := hopens.fetches_cases hf
      have hlocks := runInstruction_locks hlocked _ _ fun ha => hno (hopens.lockableAt hf ha)
      obtain ⟨eip, log, rfl⟩ := hf.moved
      obtain ⟨eip', log', rfl⟩ := hlocks.of_error hr
      exact ⟨_, _, rfl⟩
    | unfetched _ => exact ⟨_, _, rfl⟩
    | never _ => exact absurd rfl hnever
  refine ⟨fun hdone => ?_, hrefused⟩
  by_contra hno
  obtain ⟨f, log, hstep⟩ := hrefused hno
  rw [hstep] at hdone
  cases hdone

/-- A machine before a locked addition to the operand that `modeByte` names. -/
def addingLocked (modeByte : UInt8) : Machine Ram :=
  let m := Machine.initial ⟨⟨#[0x66, 0xF0, 0x01, modeByte]⟩, none, 0, #[]⟩ {}
  { m with eip := 0, segs := m.segs.set .cs (.realMode 0 false) }

/-- The addition to memory is completed.  The addition to a register is refused. -/
theorem step_of_addingLocked :
    ((addingLocked 0x08).step.1 = .completed ∧ (addingLocked 0x08).LockableAt 2) ∧
      ∃ f log, (addingLocked 0xC8).step = (.fault f, { addingLocked 0xC8 with log := log }) := by
  have hcode : ∀ modeByte, (addingLocked modeByte).HoldsCode 0 ([0x66, 0xF0] ++ [0x01]) :=
    fun _ => ⟨rfl, rfl, rfl, trivial⟩
  have hstep := fun modeByte => (addingLocked modeByte).step_of_locked
    (by decide) (by decide) (by decide) (hcode modeByte)
  have hdone : (addingLocked 0x08).step.1 = .completed := by decide +kernel
  refine ⟨⟨hdone, (hstep 0x08).1 hdone⟩, (hstep 0xC8).2 fun hlockable => ?_⟩
  cases hlockable with
  | one hcode hmem _ =>
    have hb : some (0xC8 : Byte) = some _ := hcode.2.1
    cases hb
    exact absurd hmem (by decide)
  | two hcode _ _ =>
    have hopcode : some (0x01 : Byte) = some 0x0F := hcode.1
    cases hopcode

end Machine

end Ia32
