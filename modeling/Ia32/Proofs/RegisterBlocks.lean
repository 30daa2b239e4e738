import Mathlib.Data.List.Basic
import Ia32.Proofs.StackValues

/-!
# Pushes and pops of all registers

A push of all registers stores them one after the other, each at a stack pointer
that goes around the end of the stack by itself.  A pop of all registers reads at
offsets above one stack pointer, in the opposite order, and skips the value of the
stack pointer.  The one takes back the other: what is read are the registers as
they are, and writing a register back changes nothing.

Either instruction that faults leaves every register alone.
-/

namespace Ia32

open Host Exec

variable {H : Type}

/-! ## Registers that are written back -/

namespace Processor

variable {s : Processor} {w : Width} {r : Reg}

theorem setReg_reg (hw : w ≠ .byte) : s.setReg w r (s.reg w r) = s := by
  have hsum : s.reg w r + 0 = s.reg w r := BitVec.add_zero _
  have hzero := addReg_zero (s := s) (r := r) hw
  rwa [addReg, hsum] at hzero

/-- Registers that are written as they are stay as they are. -/
theorem writeDownward_eq {value : Reg → Dword}
    (h : ∀ r ≠ Reg.esp, s.setReg w r (value r) = s) :
    writeDownward w ((List.finRange 8).reverse.map value) s = s := by
  have hzip : (List.finRange 8).reverse.zip ((List.finRange 8).reverse.map value)
      = (List.finRange 8).reverse.map fun r => (r, value r) := List.map_prod_left_eq_zip.symm
  rw [writeDownward, hzip, List.foldl_map]
  refine List.foldl_fixed' (fun r => ?_) _
  dsimp only
  split
  next => rfl
  next hr => exact h r hr

end Processor

variable [Host H] {m : Machine H} {A : Dword → Prop} {p : Prefixes} {w : Width}
  {values pushed : List Dword}

/-! ## Values that are pushed and popped -/

theorem getElem?_map_reverse_finRange {α : Type} (value : Reg → α) (k : Reg) :
    ((List.finRange 8).reverse.map value)[(k : Nat)]? = some (value k.rev) := by
  have hlt : (k : Nat) < (List.finRange 8).reverse.length := by simp
  have hrev : (List.finRange 8).reverse[(k : Nat)] = k.rev := by
    rw [List.getElem_reverse, List.getElem_finRange]
    exact Fin.ext (by simp [Fin.rev])
  rw [List.getElem?_map, List.getElem?_eq_getElem hlt, hrev, Option.map_some]

namespace Exec

/-- Values that are pushed stand on top of the stack, the last one first. -/
theorem pushEach_ends (h : m.Holds w values) (hb : Backs A m.host)
    (hA : ∀ a, (m.belowStack w pushed.length).StackByte w (pushed.length + values.length) a → A a)
    (hn : pushed.length + values.length < 2 ^ 14) :
    Ends (pushEach w pushed) m
      (fun _ m' => m'.Holds w (pushed.reverse ++ values) ∧
        ∃ host, m' = { m with toProcessor := m.belowStack w pushed.length, host := host })
      fun _ _ => True := by
  induction pushed generalizing m values with
  | nil => exact ⟨h, m.host, by rw [List.length_nil, Processor.belowStack_zero]⟩
  | cons value rest ih =>
    rw [pushEach, ends_bind]
    refine (push_ends w value m).mono ?_ fun _ _ _ => trivial
    rintro _ _ ⟨rfl, -⟩
    have hbelow : (m.belowStack w 1).belowStack w rest.length
        = m.belowStack w (value :: rest).length := by
      rw [Processor.belowStack_belowStack, List.length_cons, Nat.add_comm]
    have hlength : (value :: rest).length + values.length
        = rest.length + (value :: values).length := by
      simp only [List.length_cons]
      omega
    rw [hlength, ← hbelow] at hA
    have hplace : ∀ a, (m.belowStack w 1).StackByte w (value :: values).length a → A a :=
      fun a ha => hA a (ha.belowStack rest.length)
    have hstored : StoredIn A m.host (m.afterPush w value).host :=
      Machine.storedIn_afterPush fun i hi => hplace _ ⟨0, Nat.zero_lt_succ _, i, hi, rfl⟩
    have hholds : (m.afterPush w value).Holds w (value :: values) := by
      refine h.afterPush hb (fun a ha => hplace a ?_) (by rw [List.length_cons] at hn; omega)
      rwa [List.length_cons, Nat.add_comm]
    refine (ih hholds (hb.of_storedIn hstored) hA (hlength ▸ hn)).mono ?_ fun _ _ _ => trivial
    rintro _ _ ⟨hrest, host, rfl⟩
    refine ⟨?_, host, by rw [← hbelow]; rfl⟩
    rwa [List.reverse_cons, List.append_assoc]

/-- Values that stand on the stack are read. -/
theorem stackValues_ends (h : m.Holds w values) (count index : Nat)
    (hn : index + count ≤ values.length) :
    Ends (stackValues w count index) m
      (fun read m' => read = ((values.drop index).take count).map w.truncate ∧ m' = m)
      fun _ _ => True := by
  induction count generalizing index with
  | zero => exact ⟨rfl, rfl⟩
  | succ count ih =>
    have hindex : index < values.length := by omega
    rw [stackValues, ends_bind, ends_view]
    refine ((load_observes w .ss _).finds m).bind (fun _ _ _ => trivial) fun value hvalue => ?_
    obtain ⟨-, rfl⟩ := (h.load_iff (List.getElem?_eq_getElem hindex)).1 hvalue
    rw [ends_bind]
    refine (ih (index + 1) (by omega)).mono ?_ fun _ _ _ => trivial
    rintro rest _ ⟨rfl, rfl⟩
    refine ⟨?_, rfl⟩
    rw [List.drop_eq_getElem_cons hindex, List.take_succ_cons, List.map_cons]

/-! ## All registers -/

/-- A push of all registers that succeeds leaves their values on the stack, as they were before. -/
theorem pushAll_ends (p : Prefixes) (hb : Backs A m.host)
    (hA : ∀ a, (m.belowStack w 8).StackByte w 8 a → A a) :
    Ends (pushAll p w) m
      (fun _ m' => m'.Holds w ((List.finRange 8).reverse.map (m.reg w)) ∧
        ∃ host, m' = { m with toProcessor := m.belowStack w 8, host := host })
      fun _ _ => True := by
  rw [pushAll, ends_bind]
  refine (checkLock_ends p m).mono ?_ fun _ _ h => h
  rintro _ m rfl
  rw [ends_bind, ends_view, keepingStack, ends_bind, ends_view, ends_tryCatch]
  refine (pushEach_ends (m.holds_nil w) hb (by simpa using hA) (by simp)).mono ?_ fun _ _ _ => trivial
  rintro _ m' ⟨hholds, hm⟩
  rw [← List.map_reverse, List.append_nil] at hholds
  rw [List.length_map, List.length_finRange] at hm
  exact ⟨hholds, hm⟩

/-- A pop of all registers that finds them as they are on the stack moves the stack pointer alone. -/
theorem popAll_ends (p : Prefixes) (hw : w ≠ .byte) {value : Reg → Dword}
    (h : m.Holds w ((List.finRange 8).reverse.map value))
    (hv : ∀ r ≠ Reg.esp, m.reg w r = value r) :
    Ends (popAll p w) m
      (fun _ m' => m' = { m with toProcessor := m.addSp (BitVec.ofNat 32 (8 * w.bytes)) })
      fun _ _ => True := by
  rw [popAll, ends_bind]
  refine (checkLock_ends p m).mono ?_ fun _ _ h => h
  rintro _ m rfl
  rw [ends_bind]
  refine (stackValues_ends h 8 0 (by simp)).mono ?_ fun _ _ h => h
  rintro read m ⟨rfl, rfl⟩
  have hread : (((List.finRange 8).reverse.map value).drop 0 |>.take 8).map w.truncate
      = (List.finRange 8).reverse.map fun r => w.truncate (value r) := by
    rw [List.drop_zero, List.take_of_length_le (by simp), List.map_map]
    rfl
  have hsame : ∀ r ≠ Reg.esp, m.setReg w r (w.truncate (value r)) = m.toProcessor := by
    intro r hr
    rw [Processor.setReg_truncate hw, ← hv r hr, Processor.setReg_reg hw]
  rw [ends_update, hread, Processor.writeDownward_eq hsame]
  rfl

end Exec

/-! ## Steps -/

/-- Machines that agree outside memory have the same processor, but for the instruction pointer. -/
theorem Agree.toProcessor_eq {permits : H → Dword → List Byte → Prop} {S : Footprint}
    {m' : Machine H} (h : Agree permits S m m') (hS : S ⊆ [.memory, .tornMemory]) :
    m'.toProcessor = { m.toProcessor with eip := m'.eip } := by
  have hnone (part : Part) (hpart : part ∉ [Part.memory, .tornMemory]) : part ∉ S :=
    fun hp => hpart (hS hp)
  have hflags : m'.eflags = m.eflags := BitVec.eq_of_getLsbD_eq fun i _ => h.flags i fun hf => by
    rcases hf with ⟨hp, -⟩ | ⟨hp, -⟩
    · exact hnone .arithmeticFlags (by decide) hp
    · exact hnone .directionFlag (by decide) hp
  have hregs := h.regs_eq (hnone .registers (by decide)) (hnone .stackPointer (by decide))
  have hfpu := h.fpu_eq (hnone .float (by decide)) (hnone .floatStatus (by decide))
  dsimp only
  rw [← hregs, ← hflags, ← hfpu, ← h.segs, ← h.cr0, ← h.gdtr, ← h.idtr, ← h.ldtr, ← h.tr]

namespace Machine

/-- An instruction that changes nothing but memory before it faults leaves the processor alone. -/
theorem toProcessor_of_fault {i : Instruction} {e : Effect} {f : Fault}
    (hi : m.instruction? = some (p, i)) (hx : HasEffect e (runInstruction p i : Exec H Unit))
    (he : Footprint.Fits e.fault (some [.memory, .tornMemory])) (h : m.step.1 = .fault f) :
    m.step.2.toProcessor = m.toProcessor := by
  obtain ⟨m₁, m₂, log, hf, hrun, hstep⟩ := exists_run_of_fault hi h
  obtain ⟨eip, log', rfl⟩ := hf.moved
  have hall : CoversSegments (fun _ _ _ => True) { m with eip := eip, log := log' } :=
    fun _ _ _ _ _ => trivial
  obtain ⟨S, hS, ha⟩ := ((hx hall).of_error hrun).fault
  obtain ⟨T, hT, hsub⟩ := he.exists hS
  cases hT
  rw [hstep]
  exact congrArg (fun s : Processor => { s with eip := m.eip }) (ha.toProcessor_eq hsub)

/-- A push of all registers is completed, and memory that remembers is where it stores them. -/
structure PushesAll (m : Machine H) (A : Dword → Prop) (w : Width) : Prop where
  instruction : ∃ p, m.instruction? = some (p, .pushAll) ∧ p.operandWidth m.toProcessor = w
  completed : m.step.1 = .completed
  backs : Backs A m.host
  block : ∀ a, (m.belowStack w 8).StackByte w 8 a → A a

/-- A pop of all registers is completed. -/
structure PopsAll (m : Machine H) (w : Width) : Prop where
  instruction : ∃ p, m.instruction? = some (p, .popAll) ∧ p.operandWidth m.toProcessor = w
  completed : m.step.1 = .completed

theorem PushesAll.width_ne (h : m.PushesAll A w) : w ≠ .byte := by
  obtain ⟨p, -, rfl⟩ := h.instruction
  unfold Prefixes.operandWidth
  split <;> decide

/-- The registers stand on the stack after a push of all registers. -/
theorem PushesAll.exists_after (h : m.PushesAll A w) :
    (∃ eip, m.step.2.toProcessor = { m.belowStack w 8 with eip := eip }) ∧
      m.step.2.Holds w ((List.finRange 8).reverse.map (m.reg w)) := by
  obtain ⟨p, hi, rfl⟩ := h.instruction
  obtain ⟨m₁, m₂, hf, hrun, hstep⟩ := exists_run_of_completed hi h.completed
  obtain ⟨eip, log, rfl⟩ := hf.moved
  rw [runInstruction, Exec.operandWidth, run_view_bind] at hrun
  have hends := pushAll_ends (m := { m with eip := eip, log := log })
    (w := p.operandWidth m.toProcessor) p h.backs h.block
  obtain ⟨hholds, host, rfl⟩ := hends.of_ok hrun
  rw [hstep]
  exact ⟨⟨eip, rfl⟩, hholds⟩

/-- A pop of all registers that finds them on the stack takes back a push. -/
theorem PopsAll.toProcessor_eq (h : m.PopsAll w) (hw : w ≠ .byte) {s : Processor} {eip : Dword}
    (hs : m.toProcessor = { s.belowStack w 8 with eip := eip })
    (hholds : m.Holds w ((List.finRange 8).reverse.map (s.reg w))) :
    m.step.2.toProcessor = { s with eip := m.step.2.eip } ∧ m.step.2.host = m.host := by
  obtain ⟨p, hi, hwidth⟩ := h.instruction
  obtain ⟨m₁, m₂, hf, hrun, hstep⟩ := exists_run_of_completed hi h.completed
  obtain ⟨eip', log, rfl⟩ := hf.moved
  have hsame : ∀ r ≠ Reg.esp, m.reg w r = s.reg w r := by
    intro r hr
    rw [hs]
    exact Processor.reg_addSp_of_ne s (by rw [Processor.holder_of_wide hw]; exact hr.symm)
  have hends := popAll_ends (m := { m with eip := eip', log := log }) p hw hholds hsame
  rw [runInstruction, Exec.operandWidth, run_view_bind] at hrun
  have hpopped := hends.of_ok (hwidth ▸ hrun)
  have hback : ({ m with eip := eip', log := log }.toProcessor).addSp (BitVec.ofNat 32 (8 * w.bytes))
      = { s with eip := eip' } := by
    have hbelow : { m with eip := eip', log := log }.toProcessor
        = { s with eip := eip' }.belowStack w 8 :=
      congrArg (fun s : Processor => { s with eip := eip' }) hs
    rw [hbelow, Processor.addSp_belowStack]
  rw [hstep, hpopped]
  exact ⟨hback, rfl⟩

/-- A pop of all registers takes back a push of all registers, which has left each of them on the
stack.  Either one that faults leaves the registers alone. -/
theorem popAll_pushAll (m : Machine H) :
    (∀ A w, m.PushesAll A w →
      (∀ k : Reg, hostBytes m.step.2.host
          (m.segs.ss.base + m.spPlus (BitVec.ofNat 32 (k * w.bytes) - BitVec.ofNat 32 (8 * w.bytes)))
          w.bytes = .ok (bytesOf w.bytes (m.reg w k.rev).toNat)) ∧
      (m.step.2.PopsAll w →
        m.step.2.step.2.toProcessor = { m.toProcessor with eip := m.step.2.step.2.eip } ∧
          m.step.2.step.2.host = m.step.2.host)) ∧
    ∀ p f, m.instruction? = some (p, .pushAll) ∨ m.instruction? = some (p, .popAll) →
      m.step.1 = .fault f → m.step.2.toProcessor = m.toProcessor := by
  refine ⟨fun A w h => ?_, fun p f hi hfault => ?_⟩
  · obtain ⟨⟨eip, hs⟩, hholds⟩ := h.exists_after
    refine ⟨fun k => ?_, fun hpop => hpop.toProcessor_eq h.width_ne hs hholds⟩
    have haddress : m.step.2.stackAddress w k = m.segs.ss.base
        + m.spPlus (BitVec.ofNat 32 (k * w.bytes) - BitVec.ofNat 32 (8 * w.bytes)) := by
      rw [hs, Processor.stackAddress_moved, Processor.belowStack, Processor.stackAddress_addSp,
        BitVec.sub_eq_add_neg, BitVec.add_comm (-_)]
    rw [← haddress]
    exact hholds k _ (getElem?_map_reverse_finRange _ k)
  · rcases hi with hi | hi
    · exact toProcessor_of_fault hi (.skip (.view _) fun w => pushAll_hasEffect p w) (by decide)
        hfault
    · exact toProcessor_of_fault hi (.skip (.view _) fun w => popAll_hasEffect p w) (by decide)
        hfault

/-- A machine before a push of all registers and a pop of all registers, with a stack of 16 bits. -/
def aboutToPush (esp : Dword) : Machine Ram :=
  let m := Machine.initial ⟨⟨#[0x60, 0x61] ++ Array.replicate 0x1E 0⟩, none, 0, #[]⟩ {}
  { m with
    regs := #v[0x11110001, 0x22220002, 0x33330003, 0x44440004, esp, 0x66660006, 0x77770007,
      0x88880008]
    eip := 0
    segs := m.segs.set .cs (.realMode 0 false) }

theorem pushesAll_aboutToPush :
    (aboutToPush 0x55550020).PushesAll
      (fun a => a.toNat < (aboutToPush 0x55550020).host.bytes.size) .word where
  instruction := ⟨{ start := 0 }, by decide +kernel, by decide +kernel⟩
  completed := by decide +kernel
  backs := Ram.backs rfl
  block := by
    rintro _ ⟨k, hk, i, hi, rfl⟩
    have hall : ∀ k < 8, ∀ i < 2, (((aboutToPush 0x55550020).belowStack .word 8).stackAddress .word k
        + BitVec.ofNat 32 i).toNat < (aboutToPush 0x55550020).host.bytes.size := by decide +kernel
    exact hall k hk i hi

/-- The registers come back with their upper halves.  A stack pointer that is odd makes a push or a
pop fault at the end of the stack. -/
theorem popAll_pushAll_aboutToPush :
    (aboutToPush 0x55550020).step.2.step.2.toProcessor
        = { (aboutToPush 0x55550020).toProcessor with
            eip := (aboutToPush 0x55550020).step.2.step.2.eip } ∧
      (aboutToPush 0x55550005).step.2.toProcessor = (aboutToPush 0x55550005).toProcessor ∧
      { aboutToPush 0x5555FFF3 with eip := 1 }.step.2.toProcessor
        = { aboutToPush 0x5555FFF3 with eip := 1 }.toProcessor :=
  ⟨(((popAll_pushAll (aboutToPush 0x55550020)).1 _ _ pushesAll_aboutToPush).2
      ⟨⟨{ start := 1 }, by decide +kernel, by decide +kernel⟩, by decide +kernel⟩).1,
    (popAll_pushAll (aboutToPush 0x55550005)).2 { start := 0 } (.stackFault 0) (.inl (by decide +kernel))
      (by decide +kernel),
    (popAll_pushAll { aboutToPush 0x5555FFF3 with eip := 1 }).2 { start := 1 } (.stackFault 0)
      (.inr (by decide +kernel)) (by decide +kernel)⟩

end Machine

end Ia32
