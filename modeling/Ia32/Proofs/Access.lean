import Ia32.Exec.Operand
import Ia32.Exec.Tables
import Ia32.Proofs.Effect

/-!
# Effects of memory access

The effects of the programs from which instructions are made: loads and stores,
the code stream, pushes and pops, operands, and the tables in memory.  Reading
never changes the machine.  A store goes to a place that its segment grants.
-/

namespace Ia32.Exec

open Host

variable {H : Type}

/-! ## Checks -/

/-- An access that passes the check is granted by its segment. -/
theorem checkAccess_ends (cache : SegmentCache) (onStack : Bool) (offset : Dword) (len : Nat)
    (access : Access) (m : Machine H) :
    Ends (checkAccess cache onStack offset len access) m
      (fun linear m' => m' = m ∧ linear = cache.base + offset ∧
        cache.Grants m.toProcessor access offset len)
      (fun f m' => (∃ log, m' = { m with log := log }) ∧ f.isRefusal = false) := by
  have hb : Ends (do
      if !cache.contains offset len then
        note .memory .debug fun _ => boundsMessage cache offset len
        throw (if onStack then .stackFault 0 else .generalProtection 0)
      return cache.base + offset : Exec H Dword) m
      (fun linear m' => m' = m ∧ linear = cache.base + offset ∧ cache.contains offset len)
      (fun f m' => (∃ log, m' = { m with log := log }) ∧ f.isRefusal = false) := by
    cases hb : cache.contains offset len with
    | true => exact ⟨rfl, rfl, rfl⟩
    | false => exact ⟨⟨_, rfl⟩, by cases onStack <;> rfl⟩
  unfold checkAccess
  simp only [ends_bind, ends_view]
  by_cases hu : m.usesDescriptors
  · rw [if_pos hu]
    cases hn : cache.isNull with
    | true => exact ⟨⟨m.log, rfl⟩, rfl⟩
    | false =>
      cases hg : access.grantedBy cache with
      | false => exact ⟨⟨_, rfl⟩, rfl⟩
      | true => exact hb.mono (fun _ _ h => ⟨h.1, h.2.1, fun _ => ⟨hn, hg⟩, h.2.2⟩) fun _ _ h => h
  · rw [if_neg hu]
    exact hb.mono (fun _ _ h => ⟨h.1, h.2.1, fun h' => absurd h' hu, h.2.2⟩) fun _ _ h => h

/-- A segment register grants what the segment in it grants. -/
theorem linearOf_ends (seg : Seg) (offset : Dword) (len : Nat) (access : Access) (m : Machine H) :
    Ends (linearOf seg offset len access) m
      (fun linear m' => m' = m ∧ linear = (m.segs.get seg).base + offset ∧
        (m.segs.get seg).Grants m.toProcessor access offset len)
      (fun f m' => (∃ log, m' = { m with log := log }) ∧ f.isRefusal = false) := by
  simp only [linearOf, ends_bind, ends_view]
  exact checkAccess_ends _ _ offset len access m

variable [Host H]

/-- A check may log a message, and changes nothing else. -/
theorem checkAccess_observes (cache : SegmentCache) (onStack : Bool) (offset : Dword) (len : Nat)
    (access : Access) : Observes (checkAccess cache onStack offset len access : Exec H Dword) :=
  fun m => (checkAccess_ends cache onStack offset len access m).mono (fun _ _ h => h.1)
    fun _ _ h => ⟨h.1, fun _ => h.2⟩

theorem linearOf_observes (seg : Seg) (offset : Dword) (len : Nat) (access : Access) :
    Observes (linearOf seg offset len access : Exec H Dword) :=
  .bind (.view _) fun _ => checkAccess_observes _ _ offset len access

/-! ## Loads -/

/-- A host that reads gives as many bytes as were asked for. -/
theorem length_hostBytes {h : H} {linear : Dword} {n : Nat} {bytes : List Byte}
    (hb : hostBytes h linear n = .ok bytes) : bytes.length = n := by
  induction n generalizing linear bytes with
  | zero => cases hb; rfl
  | succ n ih =>
    simp only [hostBytes, bind, Except.bind] at hb
    split at hb
    next => cases hb
    next =>
      split at hb
      next => cases hb
      next hr => cases hb; simp [ih hr]

/-- A fault of several bytes is that of one of them. -/
theorem exists_read_of_hostBytes {h : H} {linear : Dword} {n : Nat} {f : Fault}
    (he : hostBytes h linear n = .error f) : ∃ address, Host.read h address = .error f := by
  induction n generalizing linear with
  | zero => cases he
  | succ n ih =>
    simp only [hostBytes, bind, Except.bind] at he
    split at he
    next hr => cases he; exact ⟨linear, hr⟩
    next =>
      split at he
      next hr => cases he; exact ih hr
      next => cases he

/-- A read asks the host, and the machine stays as it is. -/
theorem readLinear_observes (linear : Dword) (n : Nat) :
    Observes (readLinear linear n : Exec H (List Byte)) := by
  refine .bind .get fun m => ?_
  split
  next => exact .pure _
  next f he =>
    obtain ⟨address, hr⟩ := exists_read_of_hostBytes he
    exact fun m => ⟨⟨m.log, rfl⟩, fun ho => ho.read hr⟩

/-- The value of a read depends on the host alone. -/
theorem value?_readLinear (linear : Dword) (n : Nat) (m : Machine H) :
    value? (readLinear linear n) m = (hostBytes m.host linear n).toOption := by
  simp only [value?, readLinear, EStateM.run_bind, EStateM.run_get]
  cases hostBytes m.host linear n <;> rfl

theorem readLinearValue_observes (linear : Dword) (n : Nat) :
    Observes (readLinearValue linear n : Exec H Nat) :=
  .bind (readLinear_observes linear n) fun _ => .pure _

theorem loadBytes_observes (seg : Seg) (offset : Dword) (n : Nat) :
    Observes (loadBytes seg offset n : Exec H (List Byte)) :=
  .bind (linearOf_observes seg offset n .read) fun linear => readLinear_observes linear n

/-- A value in memory is read as bytes and put together. -/
theorem load_observes (w : Width) (seg : Seg) (offset : Dword) :
    Observes (load w seg offset : Exec H Dword) :=
  .bind (loadBytes_observes seg offset w.bytes) fun _ => .pure _

/-! ## Stores -/

/-- A permitted store has the effect of a store. -/
theorem writeLinear_effect {permits : H → Dword → List Byte → Prop} {linear : Dword}
    {bytes : List Byte} {m : Machine H} (hp : permits m.host linear bytes) :
    Ends (writeLinear linear bytes) m (fun _ m' => Agree permits Effect.writes.answer m m')
      (fun f m' => Effect.writes.Faults permits m f m') := by
  refine (writeLinear_ends linear bytes m).mono ?_ ?_
  · rintro _ m' rfl
    exact .ofHost _ m _ (.storeAll ⟨.inl (List.mem_singleton_self _), hp⟩)
  · rintro f m' ⟨⟨n, hn⟩, ho⟩
    refine ⟨⟨_, rfl, ?_⟩, fun hr h => ?_⟩
    · by_cases h : Orderly H
      · rw [(ho h).1]; exact .refl _ m
      · rw [hn]
        exact .ofHost _ m _ (.store n (.refl _) ⟨.inr ⟨List.mem_singleton_self _, h⟩, hp⟩)
    · simp [(ho h).2] at hr

/-- The segment is checked before the first byte is stored.  The host may fault between two
bytes. -/
theorem storeBytes_hasEffect (seg : Seg) (offset : Dword) (bytes : List Byte) :
    HasEffect .writes (storeBytes seg offset bytes : Exec H Unit) := by
  intro permits m hc
  simp only [storeBytes, ends_bind]
  refine (linearOf_ends seg offset bytes.length .write m).mono ?_ ?_
  · rintro linear m' ⟨rfl, rfl, hg⟩
    exact writeLinear_effect (hc seg _ offset bytes hg)
  · rintro f m' ⟨⟨log, rfl⟩, hf⟩
    exact ⟨⟨_, rfl, .moved _ m m.eip log⟩, fun hr => by simp [hf] at hr⟩

theorem store_hasEffect (w : Width) (seg : Seg) (offset value : Dword) :
    HasEffect .writes (store w seg offset value : Exec H Unit) :=
  storeBytes_hasEffect seg offset _

/-! ## The code stream -/

omit [Host H] in
/-- An instruction without a lock passes. -/
theorem checkLock_ends (p : Prefixes) (m : Machine H) :
    Ends (checkLock p) m (fun _ m' => m' = m) fun _ _ => True := by
  unfold checkLock
  rw [ends_ite]
  exact ⟨fun _ => trivial, fun _ => rfl⟩

theorem checkLock_hasEffect (p : Prefixes) : HasEffect .checks (checkLock p : Exec H Unit) :=
  .ite .throw (.pure _)

theorem operandWidth_hasEffect {e : Effect} (p : Prefixes) :
    HasEffect e (operandWidth p : Exec H Width) := .view _

/-- The instruction pointer is no part of a footprint: it moves with the code that is taken. -/
theorem fetch8_hasEffect : HasEffect .reads (fetch8 : Exec H Byte) := by
  refine .skip (.view _) fun cs => .skip (.view _) fun eip => ?_
  refine .when (.throwLoud rfl) (fun _ => ?_) ?_ <;>
  · refine .skip .get fun m => ?_
    split
    next => exact .skip (.moveEip _) fun _ => .pure _
    next f he =>
      exact fun _ m _ => ⟨⟨[], rfl, .refl _ m⟩, fun hr ho => by simp [ho.read he] at hr⟩

/-- A fault of the code stream leaves the machine as it was, but for the bytes before it. -/
theorem fetchBytes_hasEffect (n : Nat) : HasEffect .reads (fetchBytes n : Exec H (List Byte)) := by
  induction n with
  | zero => exact .pure _
  | succ n ih =>
    refine .andThen fetch8_hasEffect fun b => ?_
    exact .andThen ih fun bs => .pure (b :: bs)

theorem fetch_hasEffect (w : Width) : HasEffect .reads (fetch w : Exec H Dword) :=
  .andThen (fetchBytes_hasEffect w.bytes) fun _ => .pure _

theorem fetchSigned8_hasEffect : HasEffect .reads (fetchSigned8 : Exec H Dword) :=
  .andThen fetch8_hasEffect fun _ => .pure _

/-- A short immediate value is one byte with its sign. -/
theorem fetchImmediate_hasEffect (w : Width) (short : Bool) :
    HasEffect .reads (fetchImmediate w short : Exec H Dword) :=
  .ite (.andThen fetchSigned8_hasEffect fun _ => .pure _) (fetch_hasEffect w)

/-! ## Registers and the stack -/

/-- A write to a register changes registers alone, whatever its width. -/
theorem setReg_agree {permits : H → Dword → List Byte → Prop} (m : Machine H) (w : Width) (r : Reg)
    (value : Dword) :
    Agree permits [.registers] m { m with toProcessor := m.toProcessor.setReg w r value } :=
  .ofRegs m _

theorem setReg_hasEffect (w : Width) (r : Reg) (value : Dword) :
    HasEffect (.changes [.registers]) (update (·.setReg w r value) : Exec H Unit) :=
  .update fun _ m => setReg_agree m w r value

/-- The stack pointer is a part of its own, next to the other registers. -/
theorem setSp_agree {permits : H → Dword → List Byte → Prop} (m : Machine H) (value : Dword) :
    Agree permits [.stackPointer] m { m with toProcessor := m.toProcessor.setSp value } := by
  unfold Processor.setSp
  split <;> exact .ofStackPointer m _

/-- The stack pointer moves after the store, so that a fault of the store leaves it. -/
theorem push_hasEffect (w : Width) (value : Dword) :
    HasEffect ⟨[.memory, .stackPointer], some [.tornMemory], none⟩ (push w value : Exec H Unit) := by
  refine .skip (.view _) fun sp => ?_
  exact .bind (store_hasEffect w .ss sp value) (fun _ => .update fun _ m => setSp_agree m sp)
    (by decide)

/-- A pop moves the stack pointer after the read. -/
theorem pop_hasEffect (w : Width) :
    HasEffect ⟨[.stackPointer], some [], none⟩ (pop w : Exec H Dword) := by
  refine .skip (.view _) fun sp => ?_
  refine .andThen (load_observes w .ss sp).hasEffect fun value => ?_
  exact (HasEffect.update fun _ m => setSp_agree m _).map _ |>.weaken (by decide)

/-! ## Operands -/

/-- The distance behind a mode byte is read off the code. -/
theorem address16_hasEffect (mode : BitVec 2) (rm : BitVec 3) :
    HasEffect .reads (address16 mode rm : Exec H (Seg × Dword)) := by
  unfold address16
  refine .ite (.andThen (fetch_hasEffect .word) fun _ => .pure _) ?_
  extract_lets join
  have hj : ∀ d, HasEffect .reads (join d) := fun d => .skip (.view _) fun _ => .pure _
  refine .ite (.skip (.pure _) hj) (.ite ?_ ?_)
  · exact .andThen fetchSigned8_hasEffect hj
  · exact .andThen (fetch_hasEffect .word) hj

/-- So are the byte that scales an index and its own distance. -/
theorem scaledBase_hasEffect (mode : BitVec 2) :
    HasEffect .reads (scaledBase mode : Exec H (Seg × Dword)) := by
  unfold scaledBase
  refine .andThen fetch8_hasEffect fun b => ?_
  extract_lets scale index baseField join
  have hj : ∀ place, HasEffect .reads (join place) := fun place => by
    refine .ite (.skip (.pure _) fun _ => .pure _) (.skip (.view _) fun _ => .pure _)
  refine .ite ?_ (.skip (.view _) fun _ => .skip (.pure _) hj)
  exact .andThen (fetch_hasEffect .dword) fun _ => .skip (.pure _) hj

theorem address32_hasEffect (mode : BitVec 2) (rm : BitVec 3) :
    HasEffect .reads (address32 mode rm : Exec H (Seg × Dword)) := by
  unfold address32
  refine .ite (.andThen (fetch_hasEffect .dword) fun _ => .pure _) ?_
  extract_lets join
  have hj : ∀ place, HasEffect .reads (join place) := fun place => by
    refine .ite ?_ (.ite ?_ (.skip (.pure _) fun _ => .pure _))
    · exact .andThen fetchSigned8_hasEffect fun _ => .pure _
    · exact .andThen (fetch_hasEffect .dword) fun _ => .pure _
  refine .ite (.andThen (scaledBase_hasEffect mode) hj) ?_
  exact .skip (.view _) fun _ => .skip (.pure _) hj

/-- To find an operand reads code and no data. -/
theorem operand_hasEffect (p : Prefixes) (m : ModeByte) :
    HasEffect .reads (operand p m : Exec H Operand) := by
  unfold operand
  refine .ite (.pure _) ?_
  extract_lets join
  have hj : ∀ place, HasEffect .reads (join place) := fun _ => .pure _
  refine .skip (.view _) fun wide => .ite ?_ ?_
  · exact .andThen (address32_hasEffect m.mode m.rm) hj
  · exact .andThen (address16_hasEffect m.mode m.rm) hj

/-- A mode byte and the operand that it names. -/
theorem fetchOperand_hasEffect (p : Prefixes) :
    HasEffect .reads (fetchOperand p : Exec H (ModeByte × Operand)) :=
  .andThen fetch8_hasEffect fun b => (operand_hasEffect p (.ofByte b)).map _

/-- A register is as readable as memory. -/
theorem readOperand_observes (w : Width) (place : Operand) :
    Observes (readOperand w place : Exec H Dword) :=
  match place with
  | .register r => .view (·.reg w r)
  | .memory seg offset => load_observes w seg offset

/-- An operand is a register or in memory, and a write may change either. -/
theorem writeOperand_hasEffect (w : Width) (place : Operand) (value : Dword) :
    HasEffect ⟨[.registers, .memory], some [.tornMemory], none⟩
      (writeOperand w place value : Exec H Unit) :=
  match place with
  | .register r => (setReg_hasEffect w r value).weaken (by decide)
  | .memory seg offset => (store_hasEffect w seg offset value).weaken (by decide)

/-- An operand that should be in memory and is a register is refused. -/
theorem memoryPlace_hasEffect (place : Operand) :
    HasEffect .checks (memoryPlace place : Exec H (Seg × Dword)) :=
  match place with
  | .memory _ _ => .pure _
  | .register _ => .throw

theorem checkLockOn_hasEffect (p : Prefixes) (place : Operand) :
    HasEffect .checks (checkLockOn p place : Exec H Unit) :=
  .ite (.pure _) (checkLock_hasEffect p)

/-! ## Tables -/

/-- A descriptor is read from its table and not marked by that. -/
theorem readDescriptor_observes (selector : Word) :
    Observes (readDescriptor selector : Exec H Descriptor) := by
  refine .bind (.view _) fun present => ?_
  have hr : Observes (do
      let address ← view (entryAddress · selector)
      return .ofBytes (← readLinear address 8) : Exec H Descriptor) :=
    .bind (.view _) fun _ => .bind (readLinear_observes _ 8) fun _ => .pure _
  exact .ite (.bind (.throw rfl) fun _ => hr) hr

/-- The inner stack is named in the task state. -/
theorem taskStack_observes (level : Byte) :
    Observes (taskStack level : Exec H StackPointer) := by
  refine .bind (.view _) fun tr => ?_
  extract_lets offset read check
  have hr : ∀ u, Observes (read u) := fun _ => by
    refine .bind (readLinearValue_observes _ 4) fun esp => ?_
    exact .bind (readLinearValue_observes _ 2) fun ss => .pure _
  have hc : ∀ u, Observes (check u) := fun _ => .ite (.bind (.throw rfl) hr) (hr ())
  exact .ite (.bind (.throw rfl) hc) (hc ())

/-- The map of ports is looked up bit by bit, and a byte of it beyond the limit forbids. -/
theorem portsAllowed_observes (tr : SegmentCache) (mapBase port count : Nat) :
    Observes (portsAllowed tr mapBase port count : Exec H Bool) := by
  induction count generalizing port with
  | zero => exact .pure _
  | succ count ih =>
    refine .ite (.pure _) (.bind (readLinearValue_observes _ 1) fun byte => ?_)
    exact .ite (.pure _) (ih (port + 1))

theorem ioPermitted_observes (port : Word) (count : Nat) :
    Observes (ioPermitted port count : Exec H Bool) := by
  refine .bind (.view _) fun tr => .ite (.pure _) ?_
  exact .bind (readLinearValue_observes _ 2) fun _ => portsAllowed_observes tr _ _ count

end Ia32.Exec
