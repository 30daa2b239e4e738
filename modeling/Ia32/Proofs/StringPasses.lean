import Ia32.Proofs.BackedMemory
import Ia32.Proofs.IndexRegisters

/-!
# Passes of string instructions

A repeated string instruction works on one element each time it runs: it compares
two values, or moves a value between memory and a port.  Then it steps its
registers, and goes back to its first byte unless the counter is at zero or the
comparison ends the repetition.

The elements, the flags and the host of the passes to come are named in terms of
the machine before the first pass.  `StringOp.run_pass` says what a single pass
does, in these terms.
-/

namespace Ia32

open Host Exec

variable {H : Type}

/-! ## The instructions -/

/-- A string instruction, whatever the size of its elements. -/
inductive StringOp where
  /-- Compares the places of both index registers. -/
  | compare
  /-- Compares the accumulator with the place of the destination index. -/
  | scan
  /-- Reads from a port to the place of the destination index. -/
  | input
  /-- Writes from the place of the source index to a port. -/
  | output
deriving DecidableEq, Repr

namespace StringOp

/-- The instruction for elements of a size. -/
def instruction : StringOp → Size → Instruction
  | .compare => .compareStrings
  | .scan => .scanString
  | .input => .inputString
  | .output => .outputString

/-- The opcode for elements of a size. -/
def opcode : StringOp → Size → Byte
  | .compare, .byte => 0xA6
  | .compare, .full => 0xA7
  | .scan, .byte => 0xAE
  | .scan, .full => 0xAF
  | .input, .byte => 0x6C
  | .input, .full => 0x6D
  | .output, .byte => 0x6E
  | .output, .full => 0x6F

/-- The index registers that an instruction steps. -/
def indices : StringOp → List Reg
  | .compare => [Reg.esi, Reg.edi]
  | .scan | .input => [Reg.edi]
  | .output => [Reg.esi]

/-- Whether an instruction compares.  The others use a port. -/
def compares : StringOp → Bool
  | .compare | .scan => true
  | .input | .output => false

theorem decode_opcode (op : StringOp) (size : Size) :
    Instruction.decode (op.opcode size) = .ok (op.instruction size) := by
  cases op <;> cases size <;> rfl

/-- The opcode is one byte. -/
theorem opcode_ne (op : StringOp) (size : Size) : op.opcode size ≠ 0x0F := by
  cases op <;> cases size <;> decide

theorem nodup_indices (op : StringOp) : op.indices.Nodup := by
  cases op <;> decide

/-- The counter, the accumulator and the data register are no index registers. -/
theorem notMem_indices (op : StringOp) {r : Reg} (hr : r < Reg.esi) : r ∉ op.indices := by
  intro hmem
  have hindex : r = Reg.esi ∨ r = Reg.edi := by
    cases op <;> simp_all [indices]
  rcases hindex with rfl | rfl
  · exact absurd hr (by decide)
  · exact absurd hr (by decide)

/-- What an instruction runs for elements of a width. -/
def run [Host H] (op : StringOp) (p : Prefixes) (w : Width) : Exec H Unit :=
  match op with
  | .compare => compareStrings p w
  | .scan => scanString p w
  | .input => inputString p w
  | .output => outputString p w

/-- What an instruction of this group does, with the width that its opcode and its markers give
it. -/
theorem runInstruction_eq [Host H] (op : StringOp) (p : Prefixes) (size : Size) :
    (runInstruction p (op.instruction size) : Exec H Unit) = widthOf p size >>= op.run p := by
  cases op <;> rfl

end StringOp

theorem Prefixes.addressWidth_ne_byte (p : Prefixes) (s : Processor) :
    p.addressWidth s ≠ .byte := by
  unfold addressWidth
  split <;> exact nofun

/-- The width of elements of a size. -/
def Prefixes.elementWidth (p : Prefixes) (s : Processor) : Size → Width
  | .byte => .byte
  | .full => p.operandWidth s

theorem Exec.widthOf_run {p : Prefixes} {size : Size} {m : Machine H} :
    (widthOf p size).run m = .ok (p.elementWidth m.toProcessor size) m := by
  cases size <;> rfl

/-! ## Registers and offsets -/

namespace Processor

variable {s : Processor} {p : Prefixes} {w : Width} {r : Reg} {rs : List Reg} {i j : Nat}

/-- The distance from an element to the next one. -/
def stride (s : Processor) (w : Width) : Dword :=
  let size := BitVec.ofNat 32 w.bytes
  if s.flag Flags.direction then -size else size

/-- The offset of element `i`, as an index register says. -/
def elementOffset (s : Processor) (p : Prefixes) (w : Width) (r : Reg) (i : Nat) : Dword :=
  let a := p.addressWidth s
  a.truncate (s.reg a r + BitVec.ofNat 32 i * s.stride w)

/-- The counter of repetitions. -/
def counter (s : Processor) (p : Prefixes) : Dword := s.reg (p.addressWidth s) Reg.ecx

/-- The processor with one less in the counter. -/
def countedDown (s : Processor) (p : Prefixes) : Processor :=
  s.addReg (p.addressWidth s) Reg.ecx (-1)

/-- The port of string instructions. -/
def stringPort (s : Processor) : Word := (s.reg .word Reg.edx).setWidth 16

/-- The processor after `j` elements: the counter is down by as many, and the index registers are
on by as many strides. -/
def passed (s : Processor) (p : Prefixes) (w : Width) (rs : List Reg) (j : Nat) : Processor :=
  let a := p.addressWidth s
  (s.addReg a Reg.ecx (-(BitVec.ofNat 32 j))).addRegs a rs (BitVec.ofNat 32 j * s.stride w)

/-- Nothing but registers changes. -/
theorem exists_passed (s : Processor) (p : Prefixes) (w : Width) (rs : List Reg) (j : Nat) :
    ∃ regs, s.passed p w rs j = { s with regs := regs } :=
  exists_addRegs _ _ _ _

@[simp] theorem addressWidth_addReg {a : Width} {d : Dword} :
    p.addressWidth (s.addReg a r d) = p.addressWidth s := rfl

@[simp] theorem stride_addReg {a : Width} {d : Dword} :
    (s.addReg a r d).stride w = s.stride w := rfl

@[simp] theorem addressWidth_resumed {eip flags : Dword} :
    p.addressWidth (s.resumed eip flags) = p.addressWidth s := rfl

@[simp] theorem addressWidth_passed : p.addressWidth (s.passed p w rs j) = p.addressWidth s := by
  obtain ⟨regs, h⟩ := s.exists_passed p w rs j
  rw [h]
  rfl

@[simp] theorem stride_passed : (s.passed p w rs j).stride w = s.stride w := by
  obtain ⟨regs, h⟩ := s.exists_passed p w rs j
  rw [h]
  rfl

/-- Only registers change in a pass, so that the direction is the same in the next one. -/
theorem flag_passed {mask : Dword} : (s.passed p w rs j).flag mask = s.flag mask := by
  obtain ⟨regs, h⟩ := s.exists_passed p w rs j
  rw [h]
  rfl

theorem passed_zero : s.passed p w rs 0 = s := by
  have hw := p.addressWidth_ne_byte s
  have hnone : BitVec.ofNat 32 0 * s.stride w = 0 := BitVec.zero_mul
  rw [passed, hnone, addRegs_zero hw]
  exact addReg_zero hw

/-- One more element. -/
theorem passed_succ (hn : rs.Nodup) (hc : Reg.ecx ∉ rs) :
    (s.passed p w rs j).passed p w rs 1 = s.passed p w rs (j + 1) := by
  have hw := p.addressWidth_ne_byte s
  have hleft : -(BitVec.ofNat 32 j) + -(BitVec.ofNat 32 1) = -(BitVec.ofNat 32 (j + 1)) := by
    rw [BitVec.ofNat_add]
    bv_omega
  have hon : BitVec.ofNat 32 j * s.stride w + BitVec.ofNat 32 1 * s.stride w =
      BitVec.ofNat 32 (j + 1) * s.stride w := by
    rw [BitVec.ofNat_add, BitVec.add_mul]
  rw [passed, addressWidth_passed, stride_passed, passed, addRegs_addReg hw hc, addReg_addReg hw,
    addRegs_addRegs hw hn, hleft, hon, passed]

/-- The index registers are stepped before the counter. -/
theorem passed_one (hc : Reg.ecx ∉ rs) :
    s.passed p w rs 1 = (s.addRegs (p.addressWidth s) rs (s.stride w)).countedDown p := by
  obtain ⟨regs, h⟩ := exists_addRegs s (p.addressWidth s) rs (s.stride w)
  have ha : p.addressWidth (s.addRegs (p.addressWidth s) rs (s.stride w)) = p.addressWidth s := by
    rw [h]
    rfl
  have hone : BitVec.ofNat 32 1 * s.stride w = s.stride w := BitVec.one_mul _
  rw [passed, hone, countedDown, ha, addRegs_addReg (p.addressWidth_ne_byte s) hc]
  rfl

/-- The flags that a comparison leaves do not change the direction. -/
theorem stride_resumed {eip flags : Dword}
    (hd : Flags.test flags Flags.direction = s.flag Flags.direction) :
    (s.resumed eip flags).stride w = s.stride w := by
  have hflag : (s.resumed eip flags).flag Flags.direction = s.flag Flags.direction := hd
  rw [stride, hflag]
  rfl

/-- Neither the instruction pointer nor the flags are looked at, but for the direction. -/
theorem passed_resumed {eip flags : Dword}
    (hd : Flags.test flags Flags.direction = s.flag Flags.direction) :
    (s.resumed eip flags).passed p w rs j = (s.passed p w rs j).resumed eip flags := by
  rw [passed, stride_resumed hd]
  exact addRegs_resumed (s.addReg (p.addressWidth s) Reg.ecx _) _ _ _ _ _

/-- The index registers are stepped before the counter, and the flags are set before both. -/
theorem countedDown_addRegs_resumed (hc : Reg.ecx ∉ rs) {eip flags : Dword}
    (hd : Flags.test flags Flags.direction = s.flag Flags.direction) :
    ((s.resumed eip flags).addRegs (p.addressWidth s) rs (s.stride w)).countedDown p =
      (s.passed p w rs 1).resumed eip flags := by
  rw [← passed_resumed hd, passed_one hc, stride_resumed hd]
  rfl

/-- A register that is neither the counter nor an index keeps its value. -/
theorem reg_passed_of_ne {w' : Width} {r' : Reg} (hc : holder w' r' ≠ Reg.ecx)
    (hr : holder w' r' ∉ rs) : (s.passed p w rs j).reg w' r' = s.reg w' r' := by
  have hw := p.addressWidth_ne_byte s
  rw [passed, reg_addRegs_of_ne hw hr, reg_addReg_of_ne hw hc.symm]

/-- The counter falls by one in each pass.  It is no less than the number of passes, so that it
does not go around. -/
theorem toNat_counter_passed (hc : Reg.ecx ∉ rs)
    (hj : j ≤ (s.counter p).toNat) :
    ((s.passed p w rs j).counter p).toNat = (s.counter p).toNat - j := by
  have hw := p.addressWidth_ne_byte s
  rw [counter, addressWidth_passed, passed, reg_addRegs_of_ne hw (by rwa [holder_of_wide hw])]
  exact toNat_reg_subReg hw hj

theorem elementOffset_zero : s.elementOffset p w r 0 = s.reg (p.addressWidth s) r := by
  have hw := p.addressWidth_ne_byte s
  have hnone : s.reg (p.addressWidth s) r + BitVec.ofNat 32 0 * s.stride w =
      s.reg (p.addressWidth s) r := by
    rw [BitVec.zero_mul]
    exact BitVec.add_zero _
  rw [elementOffset, hnone, reg_of_wide hw, Width.truncate_truncate]

theorem elementOffset_resumed {eip flags : Dword}
    (hd : Flags.test flags Flags.direction = s.flag Flags.direction) :
    (s.resumed eip flags).elementOffset p w r i = s.elementOffset p w r i := by
  rw [elementOffset, stride_resumed hd]
  rfl

/-- After some passes an index register points to the element of the next one. -/
theorem elementOffset_passed (hn : rs.Nodup) (hc : Reg.ecx ∉ rs) (hr : r ∈ rs) :
    (s.passed p w rs j).elementOffset p w r 0 = s.elementOffset p w r j := by
  have hw := p.addressWidth_ne_byte s
  have hne : Reg.ecx ≠ holder (p.addressWidth s) r := by
    rw [holder_of_wide hw]
    exact fun h => hc (h ▸ hr)
  have hnone : BitVec.ofNat 32 0 * s.stride w = 0 := BitVec.zero_mul
  simp only [elementOffset, addressWidth_passed, stride_passed, hnone]
  rw [passed, reg_addRegs hw hn hr, reg_addReg_of_ne hw hne, Width.truncate_truncate_add]
  exact congrArg _ (BitVec.add_zero _)

/-- The registers of `s'` are those of `s` after `j` elements.  With addresses of 16 bits the upper
halves stay. -/
structure Stepped (s : Processor) (p : Prefixes) (w : Width) (rs : List Reg) (j : Nat)
    (s' : Processor) : Prop where
  counter : (s'.counter p).toNat = (s.counter p).toNat - j
  index : ∀ r ∈ rs, s'.reg (p.addressWidth s) r = s.elementOffset p w r j
  other : ∀ r, r ≠ Reg.ecx → r ∉ rs → s'.regs.get r = s.regs.get r
  high : p.addressWidth s = .word →
    ∀ r, s'.regs.get r &&& 0xFFFF0000 = s.regs.get r &&& 0xFFFF0000

theorem stepped_passed (hn : rs.Nodup) (hc : Reg.ecx ∉ rs) (hj : j ≤ (s.counter p).toNat) :
    s.Stepped p w rs j (s.passed p w rs j) where
  counter := toNat_counter_passed hc hj
  index r hr := by
    rw [← elementOffset_passed hn hc hr, elementOffset_zero, addressWidth_passed]
  other r hne hr := by
    have hsame : (s.passed p w rs j).reg .dword r = s.reg .dword r := reg_passed_of_ne hne hr
    exact hsame
  high ha r := by
    rw [passed, ha, high_addRegs, high_addReg]

end Processor

/-! ## Elements -/

variable [Host H]

/-- The host after values are written to a port, in order. -/
def Host.writePorts (w : Width) (port : Word) (h : H) (values : List Dword) : H :=
  values.foldl (fun h value => writePort h w port value) h

/-- The host after values are read from a port and stored at places, in order. -/
def Host.inputTo (w : Width) (port : Word) (h : H) (places : List Dword) : H :=
  places.foldl
    (fun h place =>
      let read := readPort h w port
      storeAll read.2 place (bytesOf w.bytes read.1.toNat)) h

namespace Machine

variable (m : Machine H) (p : Prefixes) (w : Width)

/-- Element `i` at the source index. -/
def sourceElement? (i : Nat) : Option Dword :=
  value? (load w (p.dataSegment .ds) (m.elementOffset p w Reg.esi i)) m

/-- Element `i` at the destination index. -/
def destinationElement? (i : Nat) : Option Dword :=
  value? (load w .es (m.elementOffset p w Reg.edi i)) m

/-- The linear address of element `i` at the destination index. -/
def destination (i : Nat) : Dword := m.segs.es.base + m.elementOffset p w Reg.edi i

/-- The operands of comparison `i`. -/
def operands? (op : StringOp) (i : Nat) : Option (Dword × Dword) :=
  match op with
  | .compare => do return (← m.sourceElement? p w i, ← m.destinationElement? p w i)
  | .scan => do return (m.reg w Reg.eax, ← m.destinationElement? p w i)
  | .input | .output => none

/-- The flags after `j` passes: those of the last comparison alone. -/
def passFlags (op : StringOp) : (j : Nat) → Dword
  | 0 => m.eflags
  | i + 1 =>
    match m.operands? p w op i with
    | some (a, b) => (AluOp.cmp.apply w m.eflags a b).2
    | none => m.eflags

/-- The host after `j` passes: as many elements are written to the port, or as many values from
the port are stored. -/
def passHost (op : StringOp) (j : Nat) : H :=
  match op with
  | .compare | .scan => m.host
  | .input => inputTo w m.stringPort m.host ((List.range j).map (m.destination p w))
  | .output => writePorts w m.stringPort m.host ((List.range j).filterMap (m.sourceElement? p w))

@[simp] theorem passHost_zero (op : StringOp) : m.passHost p w op 0 = m.host := by
  cases op <;> rfl

/-- One more pass of an input reads the port once more and stores what it read. -/
theorem passHost_input_succ (j : Nat) :
    m.passHost p w .input (j + 1) =
      inputTo w m.stringPort (m.passHost p w .input j) [m.destination p w j] := by
  rw [passHost, List.range_succ, List.map_append]
  exact List.foldl_append

/-- One more pass of an output reads its element and writes it to the port. -/
theorem passHost_output_succ (j : Nat) :
    m.passHost p w .output (j + 1) =
      writePorts w m.stringPort (m.passHost p w .output j) (m.sourceElement? p w j).toList := by
  have hlast : [j].filterMap (m.sourceElement? p w) = (m.sourceElement? p w j).toList := by
    cases h : m.sourceElement? p w j <;> simp [h]
  rw [passHost, List.range_succ, List.filterMap_append, hlast]
  exact List.foldl_append

/-- Whether comparison `j`, counted from one, ends the repetition. -/
def breaks (op : StringOp) (mode : RepeatMode) (j : Nat) : Bool :=
  op.compares && !mode.accepts (Flags.test (m.passFlags p w op j) Flags.zero)

/-- The machine after `j` passes, at some instruction. -/
def afterPasses (op : StringOp) (j : Nat) (eip : Dword) (log : Log) : Machine H :=
  { m with
    toProcessor := (m.toProcessor.passed p w op.indices j).resumed eip (m.passFlags p w op j)
    host := m.passHost p w op j
    log := log
    retired := m.retired + Fin.ofNat UInt64.size j }

/-- The segment grants the store of input `i`, and the host does not refuse the value. -/
structure InputStored (i : Nat) : Prop where
  grants : m.segs.es.Grants m.toProcessor .write (m.elementOffset p w Reg.edi i) w.bytes
  accepted :
    let read := readPort (m.passHost p w .input i) w m.stringPort
    ¬Refuses read.2 (m.destination p w i) (bytesOf w.bytes read.1.toNat)

/-- The access to element `i` succeeds. -/
def ElementAccessed (op : StringOp) (i : Nat) : Prop :=
  match op with
  | .compare | .scan => (m.operands? p w op i).isSome
  | .input => m.InputStored p w i
  | .output => (m.sourceElement? p w i).isSome

/-- The port may be used in the pass with element `i`. -/
def PortAllowed (op : StringOp) (i : Nat) : Prop :=
  op.compares = false → MayUse { m with host := m.passHost p w op i } ⟨m.stringPort, w⟩

end Machine

/-! ## Runs of the parts -/

namespace Exec

variable {m : Machine H} {p : Prefixes} {w : Width} {mode : RepeatMode}

omit [Host H] in
theorem checkLock_run (hl : p.lock = false) : (checkLock p : Exec H Unit).run m = .ok () m := by
  rw [checkLock, hl]
  rfl

omit [Host H] in
/-- A repeated instruction is over when its counter is zero. -/
theorem isExhausted_run (hr : p.repeats = some mode) :
    (isExhausted p).run m = .ok (m.counter p == 0) m := by
  rw [isExhausted, hr]
  rfl

omit [Host H] in
theorem decrementCounter_run :
    (decrementCounter p).run m =
      .ok ((m.countedDown p).counter p) { m with toProcessor := m.countedDown p } := by
  have hw := p.addressWidth_ne_byte m.toProcessor
  have hleft : (p.addressWidth m.toProcessor).truncate (m.counter p - 1) =
      (m.countedDown p).counter p := by
    rw [BitVec.sub_eq_add_neg]
    exact (Processor.reg_addReg hw).symm
  have hset : m.setReg (p.addressWidth m.toProcessor) Reg.ecx
      ((p.addressWidth m.toProcessor).truncate (m.counter p - 1)) = m.countedDown p := by
    rw [Processor.setReg_truncate hw, BitVec.sub_eq_add_neg]
    rfl
  rw [← hleft, ← hset]
  rfl

omit [Host H] in
/-- The end of a comparison. -/
theorem repeatComparison_run (hr : p.repeats = some mode) :
    (repeatComparison p).run m =
      let again := (m.countedDown p).counter p ≠ 0 && mode.accepts (m.flag Flags.zero)
      .ok () { m with
        toProcessor := (m.countedDown p).resumed (if again then p.start else m.eip) m.eflags } := by
  have hflag : (m.countedDown p).flag Flags.zero = m.flag Flags.zero := rfl
  rw [repeatComparison, hr]
  dsimp only
  rw [run_bind_of_ok decrementCounter_run, run_view_bind, hflag]
  split <;> rfl

omit [Host H] in
/-- The end of a move. -/
theorem repeatInstruction_run (hr : p.repeats = some mode) :
    (repeatInstruction p).run m =
      .ok () { m with
        toProcessor := (m.countedDown p).resumed
          (if (m.countedDown p).counter p ≠ 0 then p.start else m.eip) m.eflags } := by
  rw [repeatInstruction, hr, Option.isSome_some, if_pos rfl]
  rw [run_bind_of_ok decrementCounter_run]
  split <;> rfl

/-- A port that may be used passes the check. -/
theorem checkPorts_run {port : Word} (h : MayUse m ⟨port, w⟩) :
    (checkPorts port w).run m = .ok () m := by
  rw [checkPorts, run_view_bind]
  split
  next hdecides =>
    have hallowed := (value?_ioPermitted_iff ⟨port, w⟩ m).mpr (h hdecides)
    rw [run_bind_of_ok ((ioPermitted_observes port w.bytes).run_of_value hallowed)]
    rfl
  next => rfl

/-! ## Runs of the instructions -/

omit [Host H] in
theorem alu_run (w : Width) (op : AluOp) (a b : Dword) :
    (alu w op a b).run m = .ok (op.apply w m.eflags a b).1
      { m with toProcessor := m.resumed m.eip (op.apply w m.eflags a b).2 } := rfl

omit [Host H] in
theorem advance_run (p : Prefixes) (s : Processor) (r : Reg) (w : Width) :
    (advance p r w).run { m with toProcessor := s } =
      .ok () { m with toProcessor := s.addReg (p.addressWidth s) r (s.stride w) } := rfl

variable {flags : Dword} {rs : List Reg}

omit [Host H] in
/-- The end of a comparison, after the index registers are stepped. -/
theorem repeatComparison_after (hr : p.repeats = some mode) (hc : Reg.ecx ∉ rs)
    (hd : Flags.test flags Flags.direction = m.flag Flags.direction) :
    (repeatComparison p).run { m with
        toProcessor := (m.resumed m.eip flags).addRegs (p.addressWidth m.toProcessor) rs
          (m.stride w) } =
      let s := m.passed p w rs 1
      let again := s.counter p ≠ 0 && mode.accepts (Flags.test flags Flags.zero)
      .ok () { m with toProcessor := s.resumed (if again then p.start else m.eip) flags } := by
  obtain ⟨regs, hregs⟩ :=
    (m.resumed m.eip flags).exists_addRegs (p.addressWidth m.toProcessor) rs (m.stride w)
  have hcounted : ((m.resumed m.eip flags).addRegs (p.addressWidth m.toProcessor) rs
      (m.stride w)).countedDown p = (m.passed p w rs 1).resumed m.eip flags :=
    Processor.countedDown_addRegs_resumed hc hd
  rw [hregs] at hcounted ⊢
  rw [repeatComparison_run hr, hcounted]
  rfl

omit [Host H] in
/-- The end of a move, after the index registers are stepped. -/
theorem repeatInstruction_after (hr : p.repeats = some mode) (hc : Reg.ecx ∉ rs) :
    (repeatInstruction p).run { m with
        toProcessor := m.addRegs (p.addressWidth m.toProcessor) rs (m.stride w) } =
      let s := m.passed p w rs 1
      .ok () { m with
        toProcessor := s.resumed (if s.counter p ≠ 0 then p.start else m.eip) m.eflags } := by
  obtain ⟨regs, hregs⟩ := m.exists_addRegs (p.addressWidth m.toProcessor) rs (m.stride w)
  have hcounted : m.passed p w rs 1 =
      (m.addRegs (p.addressWidth m.toProcessor) rs (m.stride w)).countedDown p :=
    Processor.passed_one hc
  rw [hcounted, hregs, repeatInstruction_run hr]

omit [Host H] in
/-- The end of a pass that compares nothing: one step of the index register, and one of the
counter. -/
theorem advanceAndRepeat_run (hr : p.repeats = some mode) {r : Reg} (hc : Reg.ecx ∉ [r]) :
    (do advance p r w; repeatInstruction p).run m =
      let s := m.passed p w [r] 1
      .ok () { m with
        toProcessor := s.resumed (if s.counter p ≠ 0 then p.start else m.eip) m.eflags } := by
  have hadvance : (advance p r w).run m = .ok () { m with
      toProcessor := m.addRegs (p.addressWidth m.toProcessor) [r] (m.stride w) } := rfl
  rw [run_bind_of_ok hadvance]
  exact repeatInstruction_after hr hc

/-- One pass of a comparison in memory, when both elements can be read. -/
theorem compareStrings_run (hl : p.lock = false) (hr : p.repeats = some mode)
    (hc : m.counter p ≠ 0) {a b : Dword} (ha : m.sourceElement? p w 0 = some a)
    (hb : m.destinationElement? p w 0 = some b) :
    (compareStrings p w).run m =
      let flags := (AluOp.cmp.apply w m.eflags a b).2
      let s := m.passed p w StringOp.compare.indices 1
      let again := s.counter p ≠ 0 && mode.accepts (Flags.test flags Flags.zero)
      .ok () { m with toProcessor := s.resumed (if again then p.start else m.eip) flags } := by
  rw [Machine.sourceElement?, Processor.elementOffset_zero] at ha
  rw [Machine.destinationElement?, Processor.elementOffset_zero] at hb
  have hdirection := AluOp.cmp_direction w m.eflags a b
  rw [compareStrings, run_bind_of_ok (checkLock_run hl), run_bind_of_ok (isExhausted_run hr),
    if_neg (by simpa using hc), indexRegister, run_view_bind,
    run_bind_of_ok ((load_observes _ _ _).run_of_value ha), indexRegister, run_view_bind,
    run_bind_of_ok ((load_observes _ _ _).run_of_value hb), run_bind_of_ok (alu_run ..),
    run_bind_of_ok (advance_run ..), run_bind_of_ok (advance_run ..)]
  simp only [Processor.addressWidth_addReg, Processor.stride_addReg, Processor.addressWidth_resumed,
    Processor.stride_resumed hdirection]
  have hrs : Reg.ecx ∉ [Reg.esi, Reg.edi] := by decide
  exact repeatComparison_after hr hrs hdirection

/-- One pass of a search for the accumulator. -/
theorem scanString_run (hl : p.lock = false) (hr : p.repeats = some mode) (hc : m.counter p ≠ 0)
    {b : Dword} (hb : m.destinationElement? p w 0 = some b) :
    (scanString p w).run m =
      let flags := (AluOp.cmp.apply w m.eflags (m.reg w Reg.eax) b).2
      let s := m.passed p w StringOp.scan.indices 1
      let again := s.counter p ≠ 0 && mode.accepts (Flags.test flags Flags.zero)
      .ok () { m with toProcessor := s.resumed (if again then p.start else m.eip) flags } := by
  rw [Machine.destinationElement?, Processor.elementOffset_zero] at hb
  have hdirection := AluOp.cmp_direction w m.eflags (m.reg w Reg.eax) b
  rw [scanString, run_bind_of_ok (checkLock_run hl), run_bind_of_ok (isExhausted_run hr),
    if_neg (by simpa using hc), indexRegister, run_view_bind,
    run_bind_of_ok ((load_observes _ _ _).run_of_value hb), run_view_bind,
    run_bind_of_ok (alu_run ..), run_bind_of_ok (advance_run ..)]
  simp only [Processor.addressWidth_resumed, Processor.stride_resumed hdirection]
  have hrs : Reg.ecx ∉ [Reg.edi] := by decide
  exact repeatComparison_after hr hrs hdirection

theorem portNumber_run (hl : p.lock = false) :
    (portNumber p .register).run m = .ok m.stringPort m := by
  rw [portNumber, run_bind_of_ok (checkLock_run hl)]
  rfl

theorem portRead_run (w : Width) (port : Word) :
    ∃ log, (portRead w port).run m =
      .ok (readPort m.host w port).1 { m with host := (readPort m.host w port).2, log := log } := by
  cases w <;> exact ⟨_, rfl⟩

theorem portWrite_run (w : Width) (port : Word) (value : Dword) :
    ∃ log, (portWrite w port value).run m =
      .ok () { m with host := writePort m.host w port value, log := log } := by
  cases w <;> exact ⟨_, rfl⟩

theorem outputString_run (hl : p.lock = false) (hr : p.repeats = some mode)
    (hc : m.counter p ≠ 0) (hp : MayUse m ⟨m.stringPort, w⟩) {value : Dword}
    (hv : m.sourceElement? p w 0 = some value) :
    ∃ log, (outputString p w).run m =
      let s := m.passed p w StringOp.output.indices 1
      .ok () { m with
        toProcessor := s.resumed (if s.counter p ≠ 0 then p.start else m.eip) m.eflags
        host := writePort m.host w m.stringPort value
        log := log } := by
  rw [Machine.sourceElement?, Processor.elementOffset_zero] at hv
  obtain ⟨log, hwrite⟩ := portWrite_run (m := m) w m.stringPort value
  have hrs : Reg.ecx ∉ [Reg.esi] := by decide
  refine ⟨log, ?_⟩
  rw [outputString, run_bind_of_ok (portNumber_run hl), run_bind_of_ok (checkPorts_run hp),
    run_bind_of_ok (isExhausted_run hr), if_neg (by simpa using hc), indexRegister, run_view_bind,
    run_bind_of_ok ((load_observes _ _ _).run_of_value hv), run_bind_of_ok hwrite]
  exact advanceAndRepeat_run hr hrs

/-- A store that its segment grants and the host does not refuse succeeds. -/
theorem store_run_of_accepted (seg : Seg) {offset value : Dword}
    (hg : (m.segs.get seg).Grants m.toProcessor .write offset w.bytes)
    (ha : ¬Refuses m.host ((m.segs.get seg).base + offset) (bytesOf w.bytes value.toNat)) :
    (store w seg offset value).run m = .ok () { m with
      host := storeAll m.host ((m.segs.get seg).base + offset) (bytesOf w.bytes value.toNat) } := by
  have hlinear := linearOf_of_grants hg
  rw [store, storeBytes, length_bytesOf, run_bind_of_ok hlinear]
  exact writeLinear_accepted ha

/-- One pass of an input, when the port may be used and the element can be stored. -/
theorem inputString_run (hl : p.lock = false) (hr : p.repeats = some mode)
    (hc : m.counter p ≠ 0) (hp : MayUse m ⟨m.stringPort, w⟩) (hs : m.InputStored p w 0) :
    ∃ log, (inputString p w).run m =
      let s := m.passed p w StringOp.input.indices 1
      .ok () { m with
        toProcessor := s.resumed (if s.counter p ≠ 0 then p.start else m.eip) m.eflags
        host := inputTo w m.stringPort m.host [m.destination p w 0]
        log := log } := by
  obtain ⟨log, hread⟩ := portRead_run (m := m) w m.stringPort
  obtain ⟨hgrants, haccepted⟩ := hs
  simp only [Machine.destination, Processor.elementOffset_zero, Machine.passHost_zero] at *
  have hrs : Reg.ecx ∉ [Reg.edi] := by decide
  have hcheck : (checkAccess m.segs.es false (m.reg (p.addressWidth m.toProcessor) Reg.edi) w.bytes
      .write).run m = .ok (m.segs.es.base + m.reg (p.addressWidth m.toProcessor) Reg.edi) m :=
    Ends.run_eq ((checkAccess_of_grants hgrants false).mono (fun _ _ h => ⟨h.2, h.1⟩)
      fun _ _ h => h)
  have hstore := store_run_of_accepted
    (m := { m with host := (readPort m.host w m.stringPort).2, log := log }) .es hgrants haccepted
  refine ⟨log, ?_⟩
  rw [inputString, run_bind_of_ok (portNumber_run hl), run_bind_of_ok (checkPorts_run hp),
    run_bind_of_ok (isExhausted_run hr), if_neg (by simpa using hc), indexRegister, run_view_bind,
    run_view_bind, run_bind_of_ok hcheck, run_bind_of_ok hread, run_bind_of_ok hstore]
  exact advanceAndRepeat_run hr hrs

end Exec

/-! ## One pass -/

namespace Machine

variable {m : Machine H} {p : Prefixes} {w : Width} {op : StringOp} {mode : RepeatMode}

theorem operands?_compare_eq_some_iff {i : Nat} {a b : Dword} :
    m.operands? p w .compare i = some (a, b) ↔
      m.sourceElement? p w i = some a ∧ m.destinationElement? p w i = some b := by
  simp only [operands?, bind, Option.bind_eq_some_iff, pure, Option.some.injEq, Prod.mk.injEq]
  constructor
  · rintro ⟨a, ha, b, hb, rfl, rfl⟩
    exact ⟨ha, hb⟩
  · rintro ⟨ha, hb⟩
    exact ⟨a, ha, b, hb, rfl, rfl⟩

theorem operands?_scan_eq_some_iff {i : Nat} {a b : Dword} :
    m.operands? p w .scan i = some (a, b) ↔
      m.reg w Reg.eax = a ∧ m.destinationElement? p w i = some b := by
  simp only [operands?, bind, Option.bind_eq_some_iff, pure, Option.some.injEq, Prod.mk.injEq]
  constructor
  · rintro ⟨b, hb, rfl, rfl⟩
    exact ⟨rfl, hb⟩
  · rintro ⟨rfl, hb⟩
    exact ⟨b, hb, rfl, rfl⟩

theorem passFlags_of_operands {i : Nat} {a b : Dword} (h : m.operands? p w op i = some (a, b)) :
    m.passFlags p w op (i + 1) = (AluOp.cmp.apply w m.eflags a b).2 := by
  rw [passFlags, h]

/-- An instruction that does not compare leaves the flags alone. -/
theorem passFlags_of_move (h : op.compares = false) (j : Nat) :
    m.passFlags p w op j = m.eflags := by
  cases op with
  | compare | scan => cases h
  | input | output => cases j <;> rfl

/-- Whether the instruction goes back to its first byte after a pass. -/
def goesBack (m : Machine H) (p : Prefixes) (w : Width) (op : StringOp) (mode : RepeatMode) :
    Bool :=
  (m.passed p w op.indices 1).counter p ≠ 0 && !m.breaks p w op mode 1

end Machine

open Machine in
/-- A pass works on the element at the index registers, steps the registers, and goes back to the
first byte unless the counter is at zero or the comparison ends the repetition. -/
theorem StringOp.run_pass {m : Machine H} {p : Prefixes} {w : Width} {mode : RepeatMode}
    (op : StringOp) (hl : p.lock = false) (hr : p.repeats = some mode) (hc : m.counter p ≠ 0)
    (hp : m.PortAllowed p w op 0) (ha : m.ElementAccessed p w op 0) :
    ∃ log, (op.run p w).run m = .ok () { m.afterPasses p w op 1
      (if m.goesBack p w op mode then p.start else m.eip) log with retired := m.retired } := by
  cases op with
  | compare =>
    obtain ⟨⟨a, b⟩, hab⟩ := Option.isSome_iff_exists.mp ha
    obtain ⟨hsource, hdestination⟩ := operands?_compare_eq_some_iff.mp hab
    refine ⟨m.log, ?_⟩
    simp only [run, compareStrings_run hl hr hc hsource hdestination, afterPasses, goesBack, breaks,
      compares, Bool.true_and, Bool.not_not, passFlags_of_operands hab, passHost]
  | scan =>
    obtain ⟨⟨a, b⟩, hab⟩ := Option.isSome_iff_exists.mp ha
    obtain ⟨rfl, hdestination⟩ := operands?_scan_eq_some_iff.mp hab
    refine ⟨m.log, ?_⟩
    simp only [run, scanString_run hl hr hc hdestination, afterPasses, goesBack, breaks,
      compares, Bool.true_and, Bool.not_not, passFlags_of_operands hab, passHost]
  | input =>
    obtain ⟨log, hrun⟩ := inputString_run hl hr hc (hp rfl) ha
    refine ⟨log, ?_⟩
    simp only [run, hrun, afterPasses, goesBack, breaks, compares, Bool.false_and, Bool.not_false,
      Bool.and_true, decide_eq_true_eq]
    rfl
  | output =>
    obtain ⟨value, hvalue⟩ := Option.isSome_iff_exists.mp ha
    obtain ⟨log, hrun⟩ := outputString_run hl hr hc (hp rfl) hvalue
    refine ⟨log, ?_⟩
    have hhost : m.passHost p w .output 1 = writePort m.host w m.stringPort value := by
      rw [passHost_output_succ, hvalue]
      rfl
    simp only [run, hrun, afterPasses, goesBack, breaks, compares, Bool.false_and, Bool.not_false,
      Bool.and_true, decide_eq_true_eq, hhost]
    rfl

/-- With the counter at zero there is nothing to do. -/
theorem StringOp.run_exhausted {m : Machine H} {p : Prefixes} {w : Width} {mode : RepeatMode}
    (op : StringOp) (hl : p.lock = false) (hr : p.repeats = some mode) (hc : m.counter p = 0)
    (hp : m.PortAllowed p w op 0) : (op.run p w).run m = .ok () m := by
  have hexhausted : (isExhausted p).run m = .ok true m := by
    rw [isExhausted_run hr, hc]
    rfl
  cases op with
  | compare =>
    rw [run, compareStrings, run_bind_of_ok (checkLock_run hl), run_bind_of_ok hexhausted]
    rfl
  | scan =>
    rw [run, scanString, run_bind_of_ok (checkLock_run hl), run_bind_of_ok hexhausted]
    rfl
  | input =>
    have hport : MayUse m ⟨m.stringPort, w⟩ := hp rfl
    rw [run, inputString, run_bind_of_ok (portNumber_run hl), run_bind_of_ok (checkPorts_run hport),
      run_bind_of_ok hexhausted]
    rfl
  | output =>
    have hport : MayUse m ⟨m.stringPort, w⟩ := hp rfl
    rw [run, outputString, run_bind_of_ok (portNumber_run hl),
      run_bind_of_ok (checkPorts_run hport), run_bind_of_ok hexhausted]
    rfl

end Ia32
