import Ia32.Proofs.Openings
import Ia32.Proofs.StringPasses

/-!
# Repeated string instructions

A repeated string instruction takes one step for each element, and between the
steps all that it has to remember is in the registers.  The steps stop when the
counter is at zero or a comparison ends the repetition, with the instruction
pointer behind the instruction.  So a run of it is the run of a loop, which can be
interrupted after each element and goes on from there.

`Machine.afterPasses` is the invariant of the loop.  It holds with one element
more after a step (`step_afterPasses`), because a pass looks at the machine where
the next element is and nowhere else.
-/

namespace Ia32

open Host Exec

variable {H : Type} [Host H]

/-! ## Hosts that keep bytes -/

namespace Host

/-- A byte of memory changes when it is stored, and not otherwise: no other store and no use of a
port changes it. -/
structure KeepsBytes (H : Type) [Host H] : Prop where
  store : ∀ (h : H) {a x : Dword} (b : Byte), x ≠ a → Host.read (Host.store h a b) x = Host.read h x
  port : ∀ {h h' : H}, PortUse h h' → ∀ x, Host.read h' x = Host.read h x

theorem portUse_readPort (h : H) (w : Width) (port : Word) : PortUse h (readPort h w port).2 := by
  cases w with
  | byte => exact .read8 h port
  | word => exact .read16 h port
  | dword => exact .read32 h port

theorem portUse_writePort (h : H) (w : Width) (port : Word) (value : Dword) :
    PortUse h (writePort h w port value) := by
  cases w with
  | byte => exact .write8 h port _
  | word => exact .write16 h port _
  | dword => exact .write32 h port value

namespace KeepsBytes

variable {h : H} {x : Dword}

theorem read_storeAll (hk : KeepsBytes H) {bytes : List Byte} {linear : Dword}
    (hx : ¬Spans linear bytes.length x) :
    Host.read (storeAll h linear bytes) x = Host.read h x := by
  induction bytes generalizing h linear with
  | nil => rfl
  | cons b bs ih =>
    have hne : x ≠ linear := by
      rintro rfl
      exact hx ⟨0, Nat.succ_pos _, (BitVec.add_zero _).symm⟩
    have hrest : ¬Spans (linear + 1) bs.length x := by
      rintro ⟨i, hi, rfl⟩
      exact hx ⟨i + 1, Nat.succ_lt_succ hi, add_one_add_ofNat linear i⟩
    rw [storeAll, ih hrest, hk.store h b hne]

theorem read_writePorts (hk : KeepsBytes H) (w : Width) (port : Word) (values : List Dword) :
    Host.read (writePorts w port h values) x = Host.read h x := by
  induction values generalizing h with
  | nil => rfl
  | cons value values ih => exact ih.trans (hk.port (portUse_writePort h w port value) x)

theorem read_inputTo (hk : KeepsBytes H) {w : Width} {port : Word} {places : List Dword}
    (hx : ∀ place ∈ places, ¬Spans place w.bytes x) :
    Host.read (inputTo w port h places) x = Host.read h x := by
  induction places generalizing h with
  | nil => rfl
  | cons place places ih =>
    have hplace : ¬Spans place (bytesOf w.bytes (readPort h w port).1.toNat).length x := by
      rw [length_bytesOf]
      exact hx place List.mem_cons_self
    have hrest := ih (h := storeAll (readPort h w port).2 place
      (bytesOf w.bytes (readPort h w port).1.toNat)) fun place hp =>
        hx place (List.mem_cons_of_mem _ hp)
    exact hrest.trans ((hk.read_storeAll hplace).trans (hk.port (portUse_readPort h w port) x))

end KeepsBytes

end Host

namespace Ram

/-- A block of bytes keeps them. -/
theorem keepsBytes : KeepsBytes Ram where
  store m a x b hne := by
    have hpeek : (m.poke a b).peek x = m.peek x := by
      by_cases ha : a.toNat < m.bytes.size
      · rw [peek_poke ha, if_neg hne]
      · rw [poke, dif_neg ha]
    change (if (m.poke a b).faultAt = some x then _ else Except.ok ((m.poke a b).peek x)) = _
    rw [poke_faultAt, hpeek]
    rfl
  port {m m'} hu x := by
    cases hu <;> rfl

end Ram

/-! ## What a load looks at -/

namespace Exec

/-- A load looks at the segment registers, the mode and the memory. -/
theorem value?_load_congr {w : Width} {seg : Seg} {offset : Dword} {m m' : Machine H}
    (hsegs : m'.segs = m.segs) (hu : m'.usesDescriptors = m.usesDescriptors)
    (hread : ∀ x, Host.read m'.host x = Host.read m.host x) :
    value? (load w seg offset) m' = value? (load w seg offset) m := by
  have hgrants : ∀ {cache : SegmentCache}, cache.Grants m'.toProcessor .read offset w.bytes ↔
      cache.Grants m.toProcessor .read offset w.bytes := by
    intro cache
    constructor
    · exact fun h => ⟨hu ▸ h.rights, h.bounds⟩
    · exact fun h => ⟨hu ▸ h.rights, h.bounds⟩
  have hbytes : ∀ linear, hostBytes m'.host linear w.bytes = hostBytes m.host linear w.bytes :=
    fun linear => hostBytes_congr fun i _ => hread _
  ext value
  rw [value?_load_eq_some_iff, value?_load_eq_some_iff, hsegs, hgrants, hbytes]

end Exec

/-! ## The machine after some passes -/

namespace Machine

variable {m : Machine H} {p : Prefixes} {w : Width} {op : StringOp} {mode : RepeatMode} {j : Nat}
  {eip : Dword} {log : Log}

/-- Memory changes at the places of inputs alone. -/
theorem read_passHost (hk : op.compares = false → KeepsBytes H) {x : Dword}
    (hx : op = .input → ∀ i < j, ¬Spans (m.destination p w i) w.bytes x) :
    Host.read (m.passHost p w op j) x = Host.read m.host x := by
  cases op with
  | compare | scan => rfl
  | input =>
    refine (hk rfl).read_inputTo fun place hp => ?_
    obtain ⟨i, hi, rfl⟩ := List.mem_map.mp hp
    exact hx rfl i (List.mem_range.mp hi)
  | output => exact (hk rfl).read_writePorts ..

/-- The flags of a comparison differ from those before it in the flags of arithmetic. -/
theorem sameOutside_passFlags (m : Machine H) (p : Prefixes) (w : Width) (op : StringOp) (j : Nat) :
    Flags.SameOutside Flags.arithmetic m.eflags (m.passFlags p w op j) := by
  cases j with
  | zero => exact .refl _ _
  | succ i =>
    rw [passFlags]
    split
    next => exact AluOp.sameOutside_apply w .cmp _ _ _
    next => exact .refl _ _

theorem direction_passFlags :
    Flags.test (m.passFlags p w op j) Flags.direction = m.flag Flags.direction :=
  (m.sameOutside_passFlags p w op j).test_eq (by decide)

theorem exists_afterPasses (m : Machine H) (p : Prefixes) (w : Width) (op : StringOp) (j : Nat)
    (eip : Dword) (log : Log) :
    ∃ regs, m.afterPasses p w op j eip log =
      { m with
        regs := regs
        eip := eip
        eflags := m.passFlags p w op j
        host := m.passHost p w op j
        log := log
        retired := m.retired + Fin.ofNat UInt64.size j } := by
  obtain ⟨regs, h⟩ := m.exists_passed p w op.indices j
  refine ⟨regs, ?_⟩
  rw [afterPasses, h]
  rfl

theorem afterPasses_zero : m.afterPasses p w op 0 m.eip m.log = m := by
  have hretired : m.retired + Fin.ofNat UInt64.size 0 = m.retired := Fin.add_zero m.retired
  rw [afterPasses, Processor.passed_zero, passHost_zero, hretired]
  rfl

theorem toProcessor_afterPasses :
    (m.afterPasses p w op j eip log).toProcessor =
      (m.passed p w op.indices j).resumed eip (m.passFlags p w op j) := rfl

theorem segs_afterPasses : (m.afterPasses p w op j eip log).segs = m.segs := by
  obtain ⟨regs, h⟩ := m.exists_afterPasses p w op j eip log
  rw [h]

theorem usesDescriptors_afterPasses :
    (m.afterPasses p w op j eip log).usesDescriptors = m.usesDescriptors := by
  obtain ⟨regs, h⟩ := m.exists_afterPasses p w op j eip log
  have hflag : Flags.test (m.passFlags p w op j) Flags.virtual8086 = m.isVirtual8086 :=
    (m.sameOutside_passFlags p w op j).test_eq (by decide)
  rw [h]
  exact congrArg (fun flag => m.isProtected && !flag) hflag

theorem reg_afterPasses {w' : Width} {r : Reg} (hr : Processor.holder w' r < Reg.esi)
    (hc : Processor.holder w' r ≠ Reg.ecx) :
    (m.afterPasses p w op j eip log).reg w' r = m.reg w' r :=
  Processor.reg_passed_of_ne hc (op.notMem_indices hr)

/-- The index registers stand at the next element. -/
theorem elementOffset_afterPasses {r : Reg} (hr : r ∈ op.indices) :
    (m.afterPasses p w op j eip log).elementOffset p w r 0 = m.elementOffset p w r j := by
  have hdirection : Flags.test (m.passFlags p w op j) Flags.direction =
      (m.passed p w op.indices j).flag Flags.direction := by
    rw [Processor.flag_passed, direction_passFlags]
  rw [toProcessor_afterPasses, Processor.elementOffset_resumed hdirection,
    Processor.elementOffset_passed op.nodup_indices (op.notMem_indices (by decide)) hr]

theorem stringPort_afterPasses : (m.afterPasses p w op j eip log).stringPort = m.stringPort := by
  rw [Processor.stringPort, reg_afterPasses (by decide) (by decide)]
  rfl

theorem destination_afterPasses (hr : Reg.edi ∈ op.indices) :
    (m.afterPasses p w op j eip log).destination p w 0 = m.destination p w j := by
  rw [destination, segs_afterPasses, elementOffset_afterPasses hr]
  rfl

/-- An element is loaded as it would have been before the passes, when these have not changed
memory. -/
theorem load_afterPasses (hread : ∀ x, Host.read (m.passHost p w op j) x = Host.read m.host x)
    {seg : Seg} {r : Reg} (hr : r ∈ op.indices) :
    value? (load w seg ((m.afterPasses p w op j eip log).elementOffset p w r 0))
        (m.afterPasses p w op j eip log) =
      value? (load w seg (m.elementOffset p w r j)) m := by
  rw [elementOffset_afterPasses hr]
  exact value?_load_congr segs_afterPasses usesDescriptors_afterPasses hread

theorem sourceElement?_afterPasses (hk : KeepsBytes H) :
    (m.afterPasses p w .output j eip log).sourceElement? p w 0 = m.sourceElement? p w j :=
  load_afterPasses (fun _ => read_passHost (fun _ => hk) fun h => by cases h) (by decide)

/-- The next comparison is of the next elements. -/
theorem operands?_afterPasses :
    (m.afterPasses p w op j eip log).operands? p w op 0 = m.operands? p w op j := by
  cases op with
  | compare =>
    have hsource : (m.afterPasses p w .compare j eip log).sourceElement? p w 0 =
        m.sourceElement? p w j := load_afterPasses (fun _ => rfl) (by decide)
    have hdestination : (m.afterPasses p w .compare j eip log).destinationElement? p w 0 =
        m.destinationElement? p w j := load_afterPasses (fun _ => rfl) (by decide)
    rw [operands?, operands?, hsource, hdestination]
  | scan =>
    have hdestination : (m.afterPasses p w .scan j eip log).destinationElement? p w 0 =
        m.destinationElement? p w j := load_afterPasses (fun _ => rfl) (by decide)
    have haccumulator : (m.afterPasses p w .scan j eip log).reg w Reg.eax = m.reg w Reg.eax :=
      reg_afterPasses (by cases w <;> decide) (by cases w <;> decide)
    rw [operands?, operands?, hdestination, haccumulator]
  | input | output => rfl

theorem exists_operands (hm : op.compares = true) (ha : m.ElementAccessed p w op j) :
    ∃ a b, m.operands? p w op j = some (a, b) := by
  have hsome : (m.operands? p w op j).isSome := by
    cases op with
    | compare | scan => exact ha
    | input | output => cases hm
  obtain ⟨⟨a, b⟩, hab⟩ := Option.isSome_iff_exists.mp hsome
  exact ⟨a, b, hab⟩

/-- The next comparison alone decides the flags. -/
theorem passFlags_afterPasses (ha : m.ElementAccessed p w op j) :
    (m.afterPasses p w op j eip log).passFlags p w op 1 = m.passFlags p w op (j + 1) := by
  have hflags : (m.afterPasses p w op j eip log).eflags = m.passFlags p w op j := rfl
  cases hm : op.compares with
  | false => rw [passFlags_of_move hm, hflags, passFlags_of_move hm, passFlags_of_move hm]
  | true =>
    obtain ⟨a, b, hab⟩ := exists_operands hm ha
    rw [passFlags_of_operands (operands?_afterPasses.trans hab), passFlags_of_operands hab, hflags]
    exact AluOp.cmp_congr (m.sameOutside_passFlags p w op j) a b

/-- The next pass goes on with the host as the passes before have left it. -/
theorem passHost_afterPasses (hk : op.compares = false → KeepsBytes H) :
    (m.afterPasses p w op j eip log).passHost p w op 1 = m.passHost p w op (j + 1) := by
  cases op with
  | compare | scan => rfl
  | input =>
    rw [passHost_input_succ, passHost_input_succ, passHost_zero, stringPort_afterPasses,
      destination_afterPasses (by decide)]
    rfl
  | output =>
    rw [passHost_output_succ, passHost_output_succ, passHost_zero, stringPort_afterPasses,
      sourceElement?_afterPasses (hk rfl)]
    rfl

theorem portAllowed_afterPasses (hp : m.PortAllowed p w op j) :
    (m.afterPasses p w op j eip log).PortAllowed p w op 0 := by
  intro hm
  obtain ⟨regs, h⟩ := m.exists_afterPasses p w op j eip log
  have hmay := hp hm
  rw [stringPort_afterPasses, passHost_zero, h, passFlags_of_move hm]
  exact hmay

theorem inputStored_afterPasses (hs : m.InputStored p w j) :
    (m.afterPasses p w .input j eip log).InputStored p w 0 := by
  have hedi : Reg.edi ∈ StringOp.input.indices := by decide
  have hhost : (m.afterPasses p w .input j eip log).host = m.passHost p w .input j := rfl
  constructor
  · rw [elementOffset_afterPasses hedi, segs_afterPasses]
    refine ⟨fun hu => hs.grants.rights ?_, hs.grants.bounds⟩
    rwa [usesDescriptors_afterPasses] at hu
  · rw [passHost_zero, stringPort_afterPasses, destination_afterPasses hedi, hhost]
    exact hs.accepted

theorem elementAccessed_afterPasses (hk : op.compares = false → KeepsBytes H)
    (ha : m.ElementAccessed p w op j) :
    (m.afterPasses p w op j eip log).ElementAccessed p w op 0 := by
  cases op with
  | compare | scan =>
    unfold ElementAccessed
    rw [operands?_afterPasses]
    exact ha
  | input => exact inputStored_afterPasses ha
  | output =>
    unfold ElementAccessed
    rw [sourceElement?_afterPasses (hk rfl)]
    exact ha

theorem passed_afterPasses :
    (m.afterPasses p w op j eip log).passed p w op.indices 1 =
      (m.passed p w op.indices (j + 1)).resumed eip (m.passFlags p w op j) := by
  have hdirection : Flags.test (m.passFlags p w op j) Flags.direction =
      (m.passed p w op.indices j).flag Flags.direction := by
    rw [Processor.flag_passed, direction_passFlags]
  rw [toProcessor_afterPasses, Processor.passed_resumed hdirection,
    Processor.passed_succ op.nodup_indices (op.notMem_indices (by decide))]

/-- A pass after some passes is one more pass. -/
theorem afterPasses_succ (hk : op.compares = false → KeepsBytes H)
    (ha : m.ElementAccessed p w op j) {eip' : Dword} {log' : Log} :
    (m.afterPasses p w op j eip log).afterPasses p w op 1 eip' log' =
      m.afterPasses p w op (j + 1) eip' log' := by
  have hretired : (m.afterPasses p w op j eip log).retired + Fin.ofNat UInt64.size 1 =
      m.retired + Fin.ofNat UInt64.size (j + 1) := by
    apply Fin.ext
    simp only [afterPasses, Fin.val_add, Fin.val_ofNat, UInt64.size]
    omega
  rw [afterPasses, passed_afterPasses, passFlags_afterPasses ha, passHost_afterPasses hk, hretired]
  rfl

theorem counter_afterPasses (hj : j ≤ (m.counter p).toNat) :
    ((m.afterPasses p w op j eip log).counter p).toNat = (m.counter p).toNat - j :=
  Processor.toNat_counter_passed (op.notMem_indices (by decide)) hj

/-- The instruction goes back while there are elements left and no comparison has ended it. -/
theorem goesBack_afterPasses (hj : j < (m.counter p).toNat) (ha : m.ElementAccessed p w op j) :
    (m.afterPasses p w op j eip log).goesBack p w op mode =
      (decide (j + 1 < (m.counter p).toNat) && !m.breaks p w op mode (j + 1)) := by
  have hcounter : ((m.afterPasses p w op j eip log).passed p w op.indices 1).counter p =
      (m.passed p w op.indices (j + 1)).counter p := by
    rw [passed_afterPasses]
    rfl
  have hleft : ((m.passed p w op.indices (j + 1)).counter p).toNat =
      (m.counter p).toNat - (j + 1) :=
    Processor.toNat_counter_passed (op.notMem_indices (by decide)) hj
  have hzero : (m.passed p w op.indices (j + 1)).counter p ≠ 0 ↔ j + 1 < (m.counter p).toNat := by
    have hnone : (0 : Dword).toNat = 0 := rfl
    rw [Ne, ← BitVec.toNat_inj, hleft, hnone]
    omega
  rw [goesBack, hcounter, breaks, breaks, passFlags_afterPasses ha, decide_eq_decide.mpr hzero]

theorem elementWidth_afterPasses {size : Size} :
    p.elementWidth (m.afterPasses p w op j eip log).toProcessor size =
      p.elementWidth m.toProcessor size := by
  obtain ⟨regs, h⟩ := m.exists_afterPasses p w op j eip log
  rw [h]
  cases size <;> rfl

/-! ## Steps -/

/-- The machine stands at a repeated string instruction with elements of width `w`, and no marker
locks it. -/
structure AtRepeated (m : Machine H) (op : StringOp) (size : Size) (bs : List Byte) (p : Prefixes)
    (w : Width) (mode : RepeatMode) : Prop where
  opens : m.Opens bs (op.opcode size) p
  width : p.elementWidth m.toProcessor size = w
  repeats : p.repeats = some mode
  unlocked : p.lock = false

/-- The offset behind an instruction of one opcode and the markers before it. -/
def pastOpcode (m : Machine H) (bs : List Byte) : Dword := m.eip + BitVec.ofNat 32 (bs.length + 1)

/-- The bytes of an instruction, up to its opcode, lie at an address. -/
def OpcodeSpans (m : Machine H) (bs : List Byte) (x : Dword) : Prop :=
  Spans (m.segs.cs.base + m.eip) (bs.length + 1) x

/-- After some passes the bytes of the instruction are what they were. -/
def CodeStays (m : Machine H) (op : StringOp) (bs : List Byte) (p : Prefixes) (w : Width)
    (j : Nat) : Prop :=
  ∀ x, m.OpcodeSpans bs x → Host.read (m.passHost p w op j) x = Host.read m.host x

/-- Code stays where memory does. -/
theorem HoldsCode.congr {n : Machine H} {bs : List Byte} {offset : Dword}
    (h : m.HoldsCode offset bs) (hsegs : n.segs = m.segs)
    (hread : ∀ x, Spans (m.segs.cs.base + offset) bs.length x →
      Host.read n.host x = Host.read m.host x) : n.HoldsCode offset bs := by
  induction bs generalizing offset with
  | nil => trivial
  | cons b bs ih =>
    refine ⟨?_, ih h.2 ?_⟩
    · have hfirst : Host.read n.host (m.segs.cs.base + offset) =
          Host.read m.host (m.segs.cs.base + offset) :=
        hread _ ⟨0, Nat.succ_pos _, (BitVec.add_zero _).symm⟩
      rw [Machine.codeByte?, hsegs, hfirst]
      exact h.1
    · rintro x ⟨i, hi, rfl⟩
      refine hread _ ⟨i + 1, Nat.succ_lt_succ hi, ?_⟩
      rw [← BitVec.add_assoc, add_one_add_ofNat]

namespace AtRepeated

variable {size : Size} {bs : List Byte}

theorem start_eq (h : m.AtRepeated op size bs p w mode) : p.start = m.eip :=
  Prefixes.start_of_extendAll? h.opens.markers

/-- The instruction is still there after some passes. -/
theorem opens_afterPasses (h : m.AtRepeated op size bs p w mode)
    (hcode : m.CodeStays op bs p w j) (log : Log) :
    (m.afterPasses p w op j m.eip log).Opens bs (op.opcode size) p where
  holds := by
    refine h.opens.holds.congr segs_afterPasses fun x hx => hcode x ?_
    rwa [List.length_append] at hx
  markers := h.opens.markers
  opcode := h.opens.opcode

theorem fetches_afterPasses (h : m.AtRepeated op size bs p w mode)
    (hcode : m.CodeStays op bs p w j) (log : Log) :
    ∃ log', (m.afterPasses p w op j m.eip log).Fetches p (op.instruction size)
      (m.afterPasses p w op j (m.pastOpcode bs) log') := by
  obtain ⟨log', hfetch⟩ :=
    (h.opens_afterPasses hcode log).fetchInstruction_run (op.opcode_ne size)
  rw [op.decode_opcode] at hfetch
  exact ⟨log', hfetch, _, _, rfl⟩

/-- A step works on one element. -/
theorem step_afterPasses (h : m.AtRepeated op size bs p w mode)
    (hk : op.compares = false → KeepsBytes H) (hcode : m.CodeStays op bs p w j)
    (hj : j < (m.counter p).toNat) (hp : m.PortAllowed p w op j) (ha : m.ElementAccessed p w op j)
    (log : Log) :
    ∃ log', (m.afterPasses p w op j m.eip log).step = (.completed, m.afterPasses p w op (j + 1)
      (if decide (j + 1 < (m.counter p).toNat) && !m.breaks p w op mode (j + 1) then m.eip
        else m.pastOpcode bs) log') := by
  obtain ⟨log₁, hfetches⟩ := h.fetches_afterPasses hcode log
  have hcounter : (m.afterPasses p w op j (m.pastOpcode bs) log₁).counter p ≠ 0 := by
    intro hzero
    have hleft : ((m.afterPasses p w op j (m.pastOpcode bs) log₁).counter p).toNat =
        (m.counter p).toNat - j := counter_afterPasses (Nat.le_of_lt hj)
    rw [hzero] at hleft
    exact Nat.sub_ne_zero_of_lt hj hleft.symm
  obtain ⟨log₂, hrun⟩ := op.run_pass h.unlocked h.repeats hcounter (portAllowed_afterPasses hp)
    (elementAccessed_afterPasses hk ha)
  refine ⟨log₂, ?_⟩
  have hwidth : (widthOf p size).run (m.afterPasses p w op j (m.pastOpcode bs) log₁) =
      .ok w (m.afterPasses p w op j (m.pastOpcode bs) log₁) := by
    rw [widthOf_run, elementWidth_afterPasses, h.width]
  rw [goesBack_afterPasses hj ha, h.start_eq, ← run_bind_of_ok hwidth (op.run p),
    ← op.runInstruction_eq] at hrun
  rw [Machine.step_of_run hfetches hrun, ← afterPasses_succ hk ha]
  rfl

/-- With the counter at zero a step passes the instruction over. -/
theorem step_of_exhausted (h : m.AtRepeated op size bs p w mode) (hc : m.counter p = 0)
    (hp : m.PortAllowed p w op 0) :
    ∃ log, m.step = (.completed,
      { m with eip := m.pastOpcode bs, log := log, retired := m.retired + 1 }) := by
  obtain ⟨log, hfetch⟩ := h.opens.fetchInstruction_run (op.opcode_ne size)
  rw [op.decode_opcode] at hfetch
  have hfetches : m.Fetches p (op.instruction size)
      { m with eip := m.pastOpcode bs, log := log } := ⟨hfetch, _, _, rfl⟩
  have hport : { m with eip := m.pastOpcode bs, log := log }.PortAllowed p w op 0 := by
    intro hm
    have hmay := hp hm
    rw [passHost_zero] at hmay ⊢
    exact hmay
  have hrun := op.run_exhausted (m := { m with eip := m.pastOpcode bs, log := log }) h.unlocked
    h.repeats hc hport
  have hwidth : (widthOf p size).run { m with eip := m.pastOpcode bs, log := log } =
      .ok w { m with eip := m.pastOpcode bs, log := log } := by
    rw [widthOf_run, ← h.width]
    cases size <;> rfl
  rw [← run_bind_of_ok hwidth (op.run p), ← op.runInstruction_eq] at hrun
  exact ⟨log, Machine.step_of_run hfetches hrun⟩

end AtRepeated

/-! ## Runs -/

theorem run_succ_of_completed {m₁ m₂ : Machine H} {n : Nat} (hr : m.run n = (⟨n, .completed⟩, m₁))
    (hs : m₁.step = (.completed, m₂)) : m.run (n + 1) = (⟨n + 1, .completed⟩, m₂) := by
  induction n generalizing m with
  | zero =>
    cases hr
    simp only [run, hs]
  | succ n ih =>
    rw [run] at hr
    split at hr
    next m' hm =>
      have hrest : m'.run n = (⟨n, .completed⟩, m₁) := by
        rcases hn : m'.run n with ⟨⟨completed, last⟩, m''⟩
        simp only [hn, Prod.mk.injEq, RunEnd.mk.injEq, Nat.add_right_cancel_iff] at hr
        obtain ⟨⟨rfl, rfl⟩, rfl⟩ := hr
        rfl
      rw [run, hm]
      simp only [ih hrest]
    next => simp at hr

/-- The number of passes that are made: as many as the counter says, or up to the first comparison
that ends the repetition. -/
def passCount (m : Machine H) (p : Prefixes) (w : Width) (op : StringOp) (mode : RepeatMode) :
    Nat :=
  let n := (m.counter p).toNat
  min ((List.range n).findIdx (fun i => m.breaks p w op mode (i + 1)) + 1) n

theorem passCount_pos (hc : 0 < (m.counter p).toNat) : 0 < m.passCount p w op mode :=
  Nat.lt_min.mpr ⟨Nat.succ_pos _, hc⟩

theorem passCount_le : m.passCount p w op mode ≤ (m.counter p).toNat := Nat.min_le_right ..

/-- No comparison before the last one ends the repetition. -/
theorem breaks_of_lt_passCount (hj : j + 1 < m.passCount p w op mode) :
    m.breaks p w op mode (j + 1) = false := by
  have hindex : j < (List.range (m.counter p).toNat).findIdx
      (fun i => m.breaks p w op mode (i + 1)) :=
    Nat.lt_of_succ_lt_succ (Nat.lt_of_lt_of_le hj (Nat.min_le_left ..))
  simpa using List.not_of_lt_findIdx hindex

/-- The last comparison ends the repetition, unless the counter has come to zero. -/
theorem breaks_passCount (hj : j + 1 = m.passCount p w op mode)
    (hlt : j + 1 < (m.counter p).toNat) : m.breaks p w op mode (j + 1) = true := by
  have hindex : (List.range (m.counter p).toNat).findIdx
      (fun i => m.breaks p w op mode (i + 1)) = j := by
    simp only [passCount] at hj
    omega
  have hlength : j < (List.range (m.counter p).toNat).length := by
    rw [List.length_range]
    exact Nat.lt_of_succ_lt hlt
  simpa using ((List.findIdx_eq hlength).mp hindex).1

/-- The instruction goes back until the last pass. -/
theorem goesOn_iff_lt_passCount (hj : j < m.passCount p w op mode) :
    (decide (j + 1 < (m.counter p).toNat) && !m.breaks p w op mode (j + 1)) =
      decide (j + 1 < m.passCount p w op mode) := by
  rcases Nat.lt_or_eq_of_le (Nat.succ_le_of_lt hj) with hlt | heq
  · have hcounter := Nat.lt_of_lt_of_le hlt passCount_le
    rw [breaks_of_lt_passCount hlt, decide_eq_true hcounter, decide_eq_true hlt]
    rfl
  · by_cases hcounter : j + 1 < (m.counter p).toNat
    · rw [breaks_passCount heq hcounter, ← heq]
      simp
    · rw [decide_eq_false hcounter, ← heq]
      simp

/-- The accesses of the passes succeed: the port may be used each time, and so may the elements.
No input is stored where the instruction lies. -/
structure PassesSucceed (m : Machine H) (op : StringOp) (bs : List Byte) (p : Prefixes) (w : Width)
    (k : Nat) : Prop where
  port : ∀ i < k, m.PortAllowed p w op i
  element : ∀ i < k, m.ElementAccessed p w op i
  apart : op = .input → ∀ i < k, ∀ x, Spans (m.destination p w i) w.bytes x → ¬m.OpcodeSpans bs x

theorem PassesSucceed.codeStays {bs : List Byte} {k : Nat} (hs : m.PassesSucceed op bs p w k)
    (hk : op.compares = false → KeepsBytes H) (hj : j ≤ k) : m.CodeStays op bs p w j := fun x hx =>
  read_passHost hk fun hinput i hi hplace =>
    hs.apart hinput i (Nat.lt_of_lt_of_le hi hj) x hplace hx

/-- After each number of steps the machine is the one after as many passes, and it stands at the
instruction until the last of them. -/
theorem AtRepeated.run_afterPasses {size : Size} {bs : List Byte}
    (h : m.AtRepeated op size bs p w mode) (hk : op.compares = false → KeepsBytes H)
    (hc : 0 < (m.counter p).toNat)
    (hs : m.PassesSucceed op bs p w (m.passCount p w op mode))
    (hj : j ≤ m.passCount p w op mode) :
    ∃ log, m.run j = (⟨j, .completed⟩, m.afterPasses p w op j
      (if j < m.passCount p w op mode then m.eip else m.pastOpcode bs) log) := by
  induction j with
  | zero => exact ⟨m.log, by rw [if_pos (passCount_pos hc), afterPasses_zero]; rfl⟩
  | succ j ih =>
    obtain ⟨log, hrun⟩ := ih (Nat.le_of_succ_le hj)
    rw [if_pos (Nat.lt_of_succ_le hj)] at hrun
    have hcode := hs.codeStays hk (Nat.le_of_succ_le hj)
    obtain ⟨log', hstep⟩ := h.step_afterPasses hk hcode (Nat.lt_of_lt_of_le hj passCount_le)
      (hs.port j hj) (hs.element j hj) log
    rw [goesOn_iff_lt_passCount hj] at hstep
    refine ⟨log', ?_⟩
    simpa using run_succ_of_completed hrun hstep

/-- A repeated string instruction with the counter at zero is passed over.  Otherwise it takes one
step for each pass, until the counter is at zero or a comparison ends the repetition.  Memory
changes at the places of inputs alone. -/
theorem run_of_repeated {size : Size} {bs : List Byte} (h : m.AtRepeated op size bs p w mode)
    (hk : op.compares = false → KeepsBytes H) :
    ((m.counter p).toNat = 0 → m.PortAllowed p w op 0 →
      ∃ log, m.step = (.completed,
        { m with eip := m.pastOpcode bs, log := log, retired := m.retired + 1 })) ∧
    (0 < (m.counter p).toNat → m.PassesSucceed op bs p w (m.passCount p w op mode) →
      0 < m.passCount p w op mode ∧ ∀ j ≤ m.passCount p w op mode,
        (∃ log, m.run j = (⟨j, .completed⟩, m.afterPasses p w op j
          (if j < m.passCount p w op mode then m.eip else m.pastOpcode bs) log)) ∧
        m.Stepped p w op.indices j (m.run j).2.toProcessor ∧
        ∀ x, (op = .input → ∀ i < j, ¬Spans (m.destination p w i) w.bytes x) →
          Host.read (m.run j).2.host x = Host.read m.host x) := by
  constructor
  · intro hc hp
    exact h.step_of_exhausted (BitVec.eq_of_toNat_eq hc) hp
  · intro hc hs
    refine ⟨passCount_pos hc, fun j hj => ?_⟩
    obtain ⟨log, hrun⟩ := h.run_afterPasses hk hc hs hj
    have hstepped : m.Stepped p w op.indices j (m.passed p w op.indices j) :=
      Processor.stepped_passed op.nodup_indices (op.notMem_indices (by decide))
        (Nat.le_trans hj passCount_le)
    refine ⟨⟨log, hrun⟩, ?_, fun x hx => ?_⟩
    · rw [hrun]
      exact ⟨hstepped.counter, hstepped.index, hstepped.other, hstepped.high⟩
    · rw [hrun]
      exact read_passHost hk hx

/-- The markers of a repeated instruction at offset zero. -/
def repeatedAtZero (mode : RepeatMode) : Prefixes := { start := 0, repeats := some mode }

/-- A machine in real mode at a comparison of some bytes.  The fourth ones differ. -/
def comparing (count : Dword) : Machine Ram :=
  let code := #[0xF3, 0xA6]
  let source := #[0x61, 0x62, 0x63, 0x58, 0x65]
  let destination := #[0x61, 0x62, 0x63, 0x64, 0x65]
  let m := Machine.initial ⟨⟨code ++ source ++ destination⟩, none, 0, #[]⟩ {}
  { m with
    regs := (((m.setReg .word Reg.ecx count).setReg .word Reg.esi 2).setReg .word Reg.edi 7).regs
    eip := 0
    segs := m.segs.set .cs (.realMode 0 false) }

/-- A machine in real mode at an input of two words. -/
def inputtingTwo : Machine Ram :=
  let m := Machine.initial ⟨⟨#[0xF2, 0x6D, 0, 0, 0, 0]⟩, none, 0x1234, #[]⟩ {}
  { m with
    regs := ((m.setReg .word Reg.ecx 2).setReg .word Reg.edi 2).regs
    eip := 0
    segs := m.segs.set .cs (.realMode 0 false) }

/-- A comparison of no bytes is passed over.  One of five stops behind the fourth, with one left.
The input stores both words. -/
theorem run_of_comparing_and_inputtingTwo :
    (∃ log, (comparing 0).step = (.completed, { comparing 0 with eip := 2, log, retired := 1 })) ∧
    (∃ log, (comparing 5).run 4 = (⟨4, .completed⟩,
      (comparing 5).afterPasses (repeatedAtZero .whileZero) .byte .compare 4 2 log)) ∧
    (∃ log, inputtingTwo.run 2 = (⟨2, .completed⟩,
      inputtingTwo.afterPasses (repeatedAtZero .whileNonzero) .word .input 2 2 log)) ∧
    (inputtingTwo.run 2).2.host.bytes = ⟨#[0xF2, 0x6D, 0x34, 0x12, 0x34, 0x12]⟩ := by
  have hcompares : ∀ count : Dword, (comparing count).AtRepeated .compare .byte [0xF3]
      (repeatedAtZero .whileZero) .byte .whileZero := fun count =>
    ⟨⟨⟨rfl, rfl, trivial⟩, rfl, by decide⟩, rfl, rfl, rfl⟩
  have hcount : (comparing 5).passCount (repeatedAtZero .whileZero) .byte .compare .whileZero =
      4 := by decide +kernel
  have hcompared : (comparing 5).PassesSucceed .compare [0xF3] (repeatedAtZero .whileZero)
      .byte 4 := by
    have hoperands : ∀ i < 4, ((comparing 5).operands? (repeatedAtZero .whileZero) .byte .compare
      i).isSome := by decide +kernel
    exact ⟨fun _ _ => nofun, hoperands, nofun⟩
  have hinputs : inputtingTwo.AtRepeated .input .full [0xF2] (repeatedAtZero .whileNonzero) .word
      .whileNonzero :=
    ⟨⟨⟨rfl, rfl, trivial⟩, rfl, by decide⟩, rfl, rfl, rfl⟩
  have hboth : inputtingTwo.passCount (repeatedAtZero .whileNonzero) .word .input .whileNonzero =
      2 := by decide +kernel
  have hstored : inputtingTwo.PassesSucceed .input [0xF2] (repeatedAtZero .whileNonzero)
      .word 2 := by
    have hfree : ¬portMapDecides inputtingTwo.toProcessor = true := by decide +kernel
    have hbounds : ∀ i < 2, inputtingTwo.segs.es.contains (inputtingTwo.elementOffset
        (repeatedAtZero .whileNonzero) .word Reg.edi i) 2 := by decide +kernel
    have hinside : ∀ i < 2,
        let read := readPort (inputtingTwo.passHost (repeatedAtZero .whileNonzero) .word .input i)
          .word inputtingTwo.stringPort
        read.2.faultAt = none ∧ ∀ k < 2,
          (inputtingTwo.destination (repeatedAtZero .whileNonzero) .word i +
            BitVec.ofNat 32 k).toNat < read.2.bytes.size := by decide +kernel
    have hapart : ∀ i < 2, ∀ k < 2, ∀ l < 2,
        inputtingTwo.destination (repeatedAtZero .whileNonzero) .word i + BitVec.ofNat 32 k ≠
          inputtingTwo.segs.cs.base + inputtingTwo.eip + BitVec.ofNat 32 l := by decide +kernel
    refine ⟨fun _ _ _ hd => absurd hd hfree, fun i hi => ⟨⟨?_, hbounds i hi⟩, ?_⟩, ?_⟩
    · exact fun hu => absurd hu (by decide +kernel)
    · exact not_refuses_of_backs (Ram.backs (hinside i hi).1) fun k hk => (hinside i hi).2 k hk
    · rintro - i hi x ⟨k, hk, rfl⟩ ⟨l, hl, heq⟩
      exact hapart i hi k hk l hl heq
  refine ⟨?_, ?_, ?_, by decide +kernel⟩
  · exact (run_of_repeated (hcompares 0) nofun).1 (by decide +kernel) nofun
  · have hruns := (run_of_repeated (hcompares 5) nofun).2 (by decide +kernel) (hcount ▸ hcompared)
    rw [hcount] at hruns
    exact (hruns.2 4 (Nat.le_refl 4)).1
  · have hruns := (run_of_repeated hinputs fun _ => Ram.keepsBytes).2 (by decide +kernel)
      (hboth ▸ hstored)
    rw [hboth] at hruns
    exact (hruns.2 2 (Nat.le_refl 2)).1

end Machine

end Ia32
