import Ia32.Proofs.BackedMemory
import Ia32.Proofs.FloatStarts
import Ia32.Proofs.IntegerStarts

/-!
# Conditions after a difference

A condition looks at single flags, and a comparison leaves them as a difference
does.  Taken together they order the operands: carry and zero order the natural
numbers, and sign, overflow and zero the signed ones.  The sign alone does not,
because a difference that leaves the width has the wrong sign, which is when
overflow is set (`Flags.IsDifference.sign_ne_overflow_iff`).

Jumps and stores of conditions look at nothing but the condition
(`Machine.decides_of_condition`), so that after a comparison they decide on the
order of its operands.
-/

namespace Ia32

open Host Exec

/-! ## Orders -/

/-- A relation of two values that a condition tells after a comparison. -/
inductive IntegerOrder where
  /-- Less, as natural numbers. -/
  | below
  /-- Less or equal, as natural numbers. -/
  | notAbove
  /-- Equal. -/
  | equal
  /-- Less, as signed numbers. -/
  | less
  /-- Less or equal, as signed numbers. -/
  | notGreater
deriving DecidableEq, Repr

namespace IntegerOrder

/-- The number of the condition.  The next number is that of the negation. -/
def code : IntegerOrder → BitVec 4
  | .below => 0x2
  | .notAbove => 0x6
  | .equal => 0x4
  | .less => 0xC
  | .notGreater => 0xE

/-- The relation of two values of a width. -/
def Holds (w : Width) (a b : Dword) : IntegerOrder → Prop
  | .below => w.toNat a < w.toNat b
  | .notAbove => w.toNat a ≤ w.toNat b
  | .equal => w.toNat a = w.toNat b
  | .less => w.toInt a < w.toInt b
  | .notGreater => w.toInt a ≤ w.toInt b

instance (w : Width) (a b : Dword) : DecidablePred (Holds w a b)
  | .below => inferInstanceAs (Decidable (w.toNat a < w.toNat b))
  | .notAbove => inferInstanceAs (Decidable (w.toNat a ≤ w.toNat b))
  | .equal => inferInstanceAs (Decidable (w.toNat a = w.toNat b))
  | .less => inferInstanceAs (Decidable (w.toInt a < w.toInt b))
  | .notGreater => inferInstanceAs (Decidable (w.toInt a ≤ w.toInt b))

end IntegerOrder

/-! ## Flags of a difference -/

/-- Two values are the same signed number when they are the same natural number. -/
theorem Width.toInt_inj {w : Width} {a b : Dword} :
    w.toInt a = w.toInt b ↔ w.toNat a = w.toNat b := by
  constructor
  · intro h
    have hmod := w.toInt_emod a
    rw [h, toInt_emod] at hmod
    exact (Int.natCast_inj.1 hmod).symm
  · intro h
    exact toInt_eq_of_holds (w.holds_toInt b) (by rw [toInt_emod, h])

namespace Flags

variable {w : Width} {a b result flags : Dword}

namespace IsDifference

/-- The signed difference, modulo two to the width. -/
theorem toInt_emod (h : IsDifference w a b false result flags) :
    w.toInt result % 2 ^ w.bits = (w.toInt a - w.toInt b) % 2 ^ w.bits := by
  have hresult : (w.toNat result : Int) = (w.toNat a - w.toNat b : Int) % 2 ^ w.bits := by
    have hr := h.result
    rw [Bool.toNat_false, Int.natCast_zero, Int.sub_zero] at hr
    rw [Width.toNat_eq, Int.natCast_emod, hr]
    exact Int.emod_emod_of_dvd _ (dvd_refl _)
  rw [Width.toInt_emod, hresult, ← Width.toInt_emod, ← Width.toInt_emod, ← Int.sub_emod]

theorem zero_iff (h : IsDifference w a b false result flags) (hr : Describes w result flags) :
    test flags zero ↔ w.toNat a = w.toNat b := by
  have hmod := h.toInt_emod
  have ha := w.holds_toInt a
  have hb := w.holds_toInt b
  rw [Width.toInt_emod] at hmod
  rw [hr.zero, ← Width.toInt_inj]
  unfold Width.Holds at *
  cases w <;> simp only [Width.bits, Width.half] at * <;> omega

/-- The sign is wrong when the difference has left the width. -/
theorem sign_ne_overflow_iff (h : IsDifference w a b false result flags)
    (hr : Describes w result flags) :
    (test flags sign != test flags Flags.overflow) ↔ w.toInt a < w.toInt b := by
  have hmod := h.toInt_emod
  have hresult := w.holds_toInt result
  have ha := w.holds_toInt a
  have hb := w.holds_toInt b
  have hoverflow := h.overflow
  rw [Bool.toNat_false, Int.natCast_zero, Int.sub_zero] at hoverflow
  rw [bne_iff_ne, ne_eq, Bool.eq_iff_iff, hr.sign, hoverflow]
  unfold Width.Holds at *
  cases w <;> simp only [Width.bits, Width.half] at * <;> omega

end IsDifference

/-! ## Conditions -/

/-- What the condition of an order looks at. -/
theorem condition_code (flags : Dword) (order : IntegerOrder) : condition flags order.code =
    match order with
    | .below => test flags carry
    | .notAbove => test flags carry || test flags zero
    | .equal => test flags zero
    | .less => test flags sign != test flags overflow
    | .notGreater => test flags zero || test flags sign != test flags overflow := by
  cases order <;> exact Bool.xor_false _

theorem condition_code_succ (flags : Dword) (order : IntegerOrder) :
    condition flags (order.code + 1) = !condition flags order.code := by
  cases order <;> exact (Bool.xor_true _).trans (congrArg not (Bool.xor_false _).symm)

/-- After a difference the conditions are the orders of its operands. -/
theorem IsDifference.condition_iff (h : IsDifference w a b false result flags)
    (hr : Describes w result flags) (order : IntegerOrder) :
    condition flags order.code ↔ order.Holds w a b := by
  have hcarry : test flags Flags.carry ↔ w.toNat a < w.toNat b := h.carry
  have hzero := h.zero_iff hr
  have hless := h.sign_ne_overflow_iff hr
  rw [condition_code]
  cases order with
  | below => exact hcarry
  | equal => exact hzero
  | less => exact hless
  | notAbove =>
    rw [Bool.or_eq_true, hcarry, hzero]
    exact Nat.le_iff_lt_or_eq.symm
  | notGreater =>
    rw [Bool.or_eq_true, hzero, hless, ← Width.toInt_inj]
    exact Int.le_iff_eq_or_lt.symm

end Flags

/-! ## Conditional instructions -/

variable {H : Type} [Host H] {m : Machine H} {p : Prefixes} {w : Width} {op : AluOp}
  {place : Operand} {a b value distance next : Dword} {code : BitVec 4} {holds : Bool}

namespace Machine

/-- The machine with a value written at a place. -/
def wrote (m : Machine H) (w : Width) (value : Dword) : Operand → Machine H
  | .register r => { m with toProcessor := m.toProcessor.setReg w r value }
  | .memory seg offset => { m with
      host := storeAll m.host ((m.segs.get seg).base + offset) (bytesOf w.bytes value.toNat) }

/-- A value can be written at a place: at any register, and where a segment grants the write and
the host accepts it. -/
def Accepts (m : Machine H) (w : Width) (value : Dword) : Operand → Prop
  | .register _ => True
  | .memory seg offset =>
    (m.segs.get seg).Grants m.toProcessor .write offset w.bytes ∧
      ¬Refuses m.host ((m.segs.get seg).base + offset) (bytesOf w.bytes value.toNat)

/-- The conditional instructions with a condition decide on a truth value, when one of them is at
the instruction pointer. -/
structure Decides (m : Machine H) (code : BitVec 4) (holds : Bool) : Prop where
  /-- A jump is taken when the value is true and the target lies in the code segment. -/
  taken : ∀ {p w distance next}, m.integerStart? = some ⟨p, .jumpIf w code distance, next⟩ →
    holds = true → m.segs.cs.contains (w.truncate (next + distance)) 1 = true →
    ∃ log, m.step = (.completed, { m with
      eip := w.truncate (next + distance)
      log := log
      retired := m.retired + 1 })
  /-- A target outside the code segment is a fault. -/
  refused : ∀ {p w distance next}, m.integerStart? = some ⟨p, .jumpIf w code distance, next⟩ →
    holds = true → m.segs.cs.contains (w.truncate (next + distance)) 1 = false →
    ∃ log, m.step = (.fault (.generalProtection 0), { m with log := log })
  /-- The program goes on behind the jump when the value is false. -/
  passed : ∀ {p w distance next}, m.integerStart? = some ⟨p, .jumpIf w code distance, next⟩ →
    holds = false →
    ∃ log, m.step = (.completed, { m with eip := next, log := log, retired := m.retired + 1 })
  /-- One is stored when the value is true, and zero otherwise. -/
  stored : ∀ {p place next}, m.integerStart? = some ⟨p, .setCondition code place, next⟩ →
    m.Accepts .byte (if holds then 1 else 0) place →
    ∃ log, m.step = (.completed, { m.wrote .byte (if holds then 1 else 0) place with
      eip := next
      log := log
      retired := m.retired + 1 })

theorem Accepts.of_same {m' : Machine H} (h : m.Accepts w value place) (hsegs : m'.segs = m.segs)
    (hu : m'.usesDescriptors = m.usesDescriptors) (hhost : m'.host = m.host) :
    m'.Accepts w value place := by
  cases place with
  | register r => trivial
  | memory seg offset =>
    rw [Accepts, hsegs, hhost]
    exact ⟨⟨fun hu' => h.1.rights (hu ▸ hu'), h.1.bounds⟩, h.2⟩

end Machine

namespace Exec

theorem writeOperand_run (h : m.Accepts w value place) :
    (writeOperand w place value).run m = .ok () (m.wrote w value place) := by
  cases place with
  | register r => rfl
  | memory seg offset =>
    have hlength : (bytesOf w.bytes value.toNat).length = w.bytes := length_bytesOf _ _
    exact storeBytes_accepted (hlength.symm ▸ h.1) h.2

omit [Host H] in
theorem jumpBy_run (hin : m.segs.cs.contains (w.truncate (m.eip + distance)) 1 = true) :
    (jumpBy w distance).run m = .ok () { m with eip := w.truncate (m.eip + distance) } := by
  rw [jumpBy, run_view_bind, jumpTo]
  have hcheck : (checkTarget (w.truncate (m.eip + distance)) : Exec H Unit).run m = .ok () m := by
    rw [checkTarget, run_view_bind, hin]
    rfl
  exact run_bind_of_ok hcheck _

omit [Host H] in
theorem jumpBy_run_of_outside
    (hout : m.segs.cs.contains (w.truncate (m.eip + distance)) 1 = false) :
    (jumpBy w distance).run m = .error (.generalProtection 0) m := by
  rw [jumpBy, run_view_bind, jumpTo, EStateM.run_bind]
  have hcheck : (checkTarget (w.truncate (m.eip + distance)) : Exec H Unit).run m =
      .error (.generalProtection 0) m := by
    rw [checkTarget, run_view_bind, hout]
    rfl
  rw [hcheck]

end Exec

namespace Machine

/-- A conditional instruction looks at its condition alone. -/
theorem decides_of_condition (hc : Flags.condition m.eflags code = holds) :
    m.Decides code holds := by
  have hjump {p w distance next} (log : Log) :
      (runOperation p (.jumpIf w code distance)).run { m with eip := next, log := log } =
        (if holds then jumpBy w distance else pure () : Exec H Unit).run
          { m with eip := next, log := log } := by
    rw [runOperation, run_view_bind, hc]
  constructor
  case taken =>
    rintro p w distance next hstart rfl hin
    obtain ⟨log, hok, -⟩ := exists_step_of_start hstart
    exact ⟨log, hok _ ((hjump log).trans (jumpBy_run hin))⟩
  case refused =>
    rintro p w distance next hstart rfl hout
    obtain ⟨log, -, herror⟩ := exists_step_of_start hstart
    obtain ⟨log', hstep⟩ := herror _ _ ((hjump log).trans (jumpBy_run_of_outside hout))
    exact ⟨log', hstep⟩
  case passed =>
    rintro p w distance next hstart rfl
    obtain ⟨log, hok, -⟩ := exists_step_of_start hstart
    exact ⟨log, hok _ (hjump log)⟩
  case stored =>
    intro p place next hstart haccepts
    obtain ⟨log, hok, -⟩ := exists_step_of_start hstart
    have hrun : (runOperation p (.setCondition code place)).run { m with eip := next, log := log } =
        .ok () ({ m with eip := next, log := log }.wrote .byte (if holds then 1 else 0) place) := by
      rw [runOperation, run_view_bind, hc]
      exact writeOperand_run (haccepts.of_same rfl rfl rfl)
    have hstep := hok _ hrun
    refine ⟨log, hstep.trans ?_⟩
    cases place <;> rfl

end Machine

/-! ## After a difference -/

namespace Exec

theorem eflags_of_writeOperand {m' : Machine H}
    (h : (writeOperand w place value).run m = .ok () m') : m'.eflags = m.eflags := by
  have hkeeps : KeepsFlags 0 (writeOperand w place value : Exec H Unit) :=
    .free (writeOperand_hasEffect w place value) (by decide)
  have hsame := (hkeeps m).of_ok h
  exact BitVec.eq_of_getLsbD_eq fun i _ => hsame i (by simp)

omit [Host H] in
theorem run_alu (w : Width) (op : AluOp) (a b : Dword) (m : Machine H) :
    (alu w op a b).run m =
      .ok (op.apply w m.eflags a b).1 { m with eflags := (op.apply w m.eflags a b).2 } := rfl

end Exec

namespace Machine

/-- A completed operation leaves the flags that it computes. -/
theorem eflags_of_alu (h : m.integerStart? = some ⟨p, .alu w op place a b, next⟩)
    (hs : m.step.1 = .completed) : m.step.2.eflags = (op.apply w m.eflags a b).2 := by
  obtain ⟨log, hok, herror⟩ := exists_step_of_start h
  cases hrun : (runOperation p (.alu w op place a b)).run
      { m with eip := next, log := log } with
  | error f m' =>
    obtain ⟨log', hstep⟩ := herror f m' hrun
    rw [hstep] at hs
    cases hs
  | ok _ m' =>
    rw [hok m' hrun]
    rw [runOperation, run_bind_of_ok (run_alu w op a b _)] at hrun
    cases hback : op.writesBack with
    | true =>
      rw [hback] at hrun
      exact eflags_of_writeOperand hrun
    | false =>
      rw [hback] at hrun
      obtain ⟨-, rfl⟩ : _ ∧ _ := EStateM.Result.ok.inj hrun
      rfl

/-- An operation is completed when its result can be written, or need not be. -/
theorem completed_of_alu (h : m.integerStart? = some ⟨p, .alu w op place a b, next⟩)
    (ha : op.writesBack = true → m.Accepts w (op.apply w m.eflags a b).1 place) :
    m.step.1 = .completed := by
  obtain ⟨log, hok, -⟩ := exists_step_of_start h
  have hflags : Agree (fun _ _ _ => True) [.arithmeticFlags] m
      { m with eflags := (op.apply w m.eflags a b).2 } :=
    flags_agree m (op.sameControl_apply w m.eflags a b)
  have hrun : ∃ m', (runOperation p (.alu w op place a b)).run
      { m with eip := next, log := log } = .ok () m' := by
    rw [runOperation, run_bind_of_ok (run_alu w op a b _)]
    cases hback : op.writesBack with
    | true => exact ⟨_, writeOperand_run ((ha hback).of_same rfl hflags.usesDescriptors_eq rfl)⟩
    | false => exact ⟨_, rfl⟩
  obtain ⟨m', hrun⟩ := hrun
  rw [hok m' hrun]

end Machine

/-- After a comparison the conditions are the orders of its operands, and so are they after a
subtraction that was completed. -/
theorem conditions_are_orders (w : Width) (a b : Dword) :
    (∀ flags (order : IntegerOrder),
      Flags.condition (AluOp.cmp.apply w flags a b).2 order.code = decide (order.Holds w a b) ∧
      Flags.condition (AluOp.cmp.apply w flags a b).2 (order.code + 1) =
        !decide (order.Holds w a b)) ∧
    ∀ (m : Machine H) (p : Prefixes) (op : AluOp) (place : Operand) (next : Dword),
      op = .cmp ∨ op = .sub →
      m.integerStart? = some ⟨p, .alu w op place a b, next⟩ →
      (op = .cmp ∨ m.Accepts w (op.apply w m.eflags a b).1 place → m.step.1 = .completed) ∧
      (m.step.1 = .completed → ∀ order : IntegerOrder,
        m.step.2.Decides order.code (decide (order.Holds w a b)) ∧
        m.step.2.Decides (order.code + 1) (!decide (order.Holds w a b))) := by
  have hcode (op : AluOp) (hop : op = .cmp ∨ op = .sub) (flags : Dword) (order : IntegerOrder) :
      Flags.condition (op.apply w flags a b).2 order.code = decide (order.Holds w a b) := by
    have hdifference : Flags.IsDifference w a b false (op.apply w flags a b).1
        (op.apply w flags a b).2 := by
      obtain rfl | rfl := hop
      · exact AluOp.computes_apply w .cmp flags a b
      · exact AluOp.computes_apply w .sub flags a b
    rw [Bool.eq_iff_iff, decide_eq_true_iff]
    exact hdifference.condition_iff (op.describes_apply w flags a b) order
  have hsucc (op : AluOp) (hop : op = .cmp ∨ op = .sub) (flags : Dword) (order : IntegerOrder) :
      Flags.condition (op.apply w flags a b).2 (order.code + 1) =
        !decide (order.Holds w a b) := by
    rw [Flags.condition_code_succ, hcode op hop]
  refine ⟨fun flags order => ⟨hcode _ (.inl rfl) flags order, hsucc _ (.inl rfl) flags order⟩, ?_⟩
  intro m p op place next hop hstart
  refine ⟨fun hplace => ?completes, fun hs order => ?decides⟩
  case completes =>
    refine Machine.completed_of_alu hstart fun hback => ?_
    obtain rfl | haccepts := hplace
    · cases hback
    · exact haccepts
  case decides =>
    have hflags := Machine.eflags_of_alu hstart hs
    constructor
    · exact Machine.decides_of_condition (by rw [hflags, hcode op hop])
    · exact Machine.decides_of_condition (by rw [hflags, hsucc op hop])

/-- A machine that compares a zero accumulator with five, and jumps over two bytes if it is less. -/
def comparing : Machine Ram := Machine.running #[0x3C, 0x05, 0x7C, 0x02, 0xF4, 0xF4, 0xF4] .initial

theorem conditions_are_orders_comparing :
    comparing.integerStart? =
        some ⟨{ start := 0 }, .alu .byte .cmp (.register Reg.eax) 0 5, 2⟩ ∧
      comparing.step.1 = .completed ∧
      comparing.step.2.integerStart? = some ⟨{ start := 2 }, .jumpIf .word 0xC 2, 4⟩ ∧
      ∃ log, comparing.step.2.step =
        (.completed, { comparing.step.2 with eip := 6, log := log, retired := 2 }) := by
  have hstart : comparing.integerStart? =
      some ⟨{ start := 0 }, .alu .byte .cmp (.register Reg.eax) 0 5, 2⟩ := by decide +kernel
  have hjump : comparing.step.2.integerStart? =
      some ⟨{ start := 2 }, .jumpIf .word 0xC 2, 4⟩ := by decide +kernel
  obtain ⟨hcompleted, hdecides⟩ :=
    (conditions_are_orders .byte 0 5).2 comparing _ .cmp _ _ (.inl rfl) hstart
  have hdone := hcompleted (.inl rfl)
  obtain ⟨hless, -⟩ := hdecides hdone .less
  have hin : comparing.step.2.segs.cs.contains (Width.word.truncate (4 + 2)) 1 = true := by
    decide +kernel
  obtain ⟨log, hstep⟩ := hless.taken hjump (by decide) hin
  refine ⟨hstart, hdone, hjump, log, hstep.trans ?_⟩
  have hretired : comparing.step.2.retired + 1 = 2 := by decide +kernel
  rw [hretired]
  rfl

end Ia32
