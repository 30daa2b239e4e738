import Ia32.Exec.Operand
import Ia32.Proofs.Openings

/-!
# Programs that take code

Some programs do nothing but take bytes from the code.  For such a program a relation
says which bytes it takes and what it makes of them.  It succeeds just when the code
at the instruction pointer holds bytes of the relation, and then the machine has moved
behind these bytes.
-/

namespace Ia32

open Host Exec

variable {H α β : Type} [Host H] {m : Machine H} {bs cs : List Byte} {offset : Dword}

namespace Machine

/-- The machine behind some bytes of its code. -/
def past (m : Machine H) (bs : List Byte) : Machine H :=
  { m with eip := m.eip + BitVec.ofNat 32 bs.length }

omit [Host H] in
@[simp] theorem past_nil : m.past [] = m := by
  have hzero : m.eip + BitVec.ofNat 32 0 = m.eip := BitVec.add_zero _
  rw [past, List.length_nil, hzero]

omit [Host H] in
/-- To go past two pieces of code is to go past both together. -/
theorem past_past : (m.past bs).past cs = m.past (bs ++ cs) := by
  rw [past, past, past, List.length_append, BitVec.ofNat_add, ← BitVec.add_assoc]

/-- Where the instruction pointer is does not change what code there is. -/
theorem holdsCode_past : (m.past bs).HoldsCode offset cs ↔ m.HoldsCode offset cs :=
  ⟨fun h => h.moved m.eip, fun h => h.moved _⟩

/-- The processor is in a state, but it may be at another place of the code. -/
def HasState (m : Machine H) (s : Processor) : Prop := { m.toProcessor with eip := s.eip } = s

omit [Host H] in
theorem hasState_self (m : Machine H) : m.HasState m.toProcessor := rfl

omit [Host H] in
/-- Nor does it bear on what operands are found with. -/
theorem HasState.past {s : Processor} (h : m.HasState s) : (m.past bs).HasState s := h

end Machine

namespace Exec

variable {s : Processor} {R S : List Byte → α → Prop}

/-- A program takes bytes from the code and does nothing else.  The relation says which bytes it
takes and what it makes of them, on a processor in state `s`. -/
def Parses (s : Processor) (x : Exec H α) (R : List Byte → α → Prop) : Prop :=
  ∀ m : Machine H, m.HasState s → ∀ a m',
    x.run m = .ok a m' ↔ ∃ bs, R bs a ∧ m.HoldsCode m.eip bs ∧ m' = m.past bs

namespace Parses

/-- The same code may be described in another way. -/
theorem congr {x : Exec H α} (h : Parses s x R) (hR : ∀ bs a, R bs a ↔ S bs a) :
    Parses s x S := by
  have heq : R = S := funext fun bs => funext fun a => propext (hR bs a)
  exact heq ▸ h

/-- A program that takes no code parses the empty piece. -/
theorem pure (a : α) : Parses s (Pure.pure a : Exec H α) fun bs b => bs = [] ∧ b = a := by
  intro m _ b m'
  constructor
  · rintro ⟨⟩
    exact ⟨[], ⟨rfl, rfl⟩, trivial, Machine.past_nil.symm⟩
  · rintro ⟨_, ⟨rfl, rfl⟩, -, rfl⟩
    rw [Machine.past_nil]
    rfl

/-- Two parsers in sequence parse the pieces one after the other. -/
theorem bind {x : Exec H α} {f : α → Exec H β} {T : α → List Byte → β → Prop}
    (hx : Parses s x R) (hf : ∀ a, Parses s (f a) (T a)) :
    Parses s (x >>= f) fun bs b => ∃ bs₁ a bs₂, R bs₁ a ∧ T a bs₂ b ∧ bs = bs₁ ++ bs₂ := by
  intro m hm b m'
  rw [run_bind_eq_ok_iff]
  constructor
  · rintro ⟨a, m₁, hrun, hrest⟩
    obtain ⟨bs₁, hR, hcode, rfl⟩ := (hx m hm a m₁).1 hrun
    obtain ⟨bs₂, hT, hcode', rfl⟩ := (hf a _ hm.past b m').1 hrest
    exact ⟨bs₁ ++ bs₂, ⟨bs₁, a, bs₂, hR, hT, rfl⟩,
      Machine.holdsCode_append.2 ⟨hcode, Machine.holdsCode_past.1 hcode'⟩, Machine.past_past⟩
  · rintro ⟨_, ⟨bs₁, a, bs₂, hR, hT, rfl⟩, hcode, rfl⟩
    obtain ⟨hcode, hcode'⟩ := Machine.holdsCode_append.1 hcode
    exact ⟨a, m.past bs₁, (hx m hm a _).2 ⟨bs₁, hR, hcode, rfl⟩, (hf a _ hm.past b _).2
      ⟨bs₂, hT, Machine.holdsCode_past.2 hcode', Machine.past_past.symm⟩⟩

/-- What is made of the bytes may be changed. -/
theorem bind_value {x : Exec H α} {f : α → Exec H β} {g : α → β} (hx : Parses s x R)
    (hf : ∀ a, Parses s (f a) fun bs b => bs = [] ∧ b = g a) :
    Parses s (x >>= f) fun bs b => ∃ a, R bs a ∧ b = g a := by
  refine (hx.bind hf).congr fun bs b => ?_
  constructor
  · rintro ⟨bs₁, a, _, hR, ⟨rfl, rfl⟩, rfl⟩
    exact ⟨a, by rwa [List.append_nil], rfl⟩
  · rintro ⟨a, hR, rfl⟩
    exact ⟨bs, a, [], hR, ⟨rfl, rfl⟩, (List.append_nil bs).symm⟩

/-- The state may be looked at, but for the place in the code. -/
theorem view {f : Processor → β} {k : β → Exec H α}
    (hf : ∀ s eip, f { s with eip := eip } = f s) (h : Parses s (k (f s)) R) :
    Parses s (Exec.view f >>= k) R := by
  intro m hm a m'
  rw [run_view_bind, ← hf m.toProcessor s.eip, hm]
  exact h m hm a m'

theorem ite {c : Prop} [Decidable c] {x y : Exec H α} (hx : c → Parses s x R)
    (hy : ¬c → Parses s y R) : Parses s (if c then x else y) R := by
  split
  next hc => exact hx hc
  next hc => exact hy hc

end Parses

/-! ## Bytes and values -/

/-- One byte. -/
theorem fetch8_parses : Parses s (fetch8 : Exec H Byte) fun bs b => bs = [b] := by
  intro m _ b m'
  constructor
  · intro hrun
    obtain ⟨hcode, rfl⟩ := (fetch8_ends m).of_ok hrun
    exact ⟨[b], rfl, ⟨hcode, trivial⟩, rfl⟩
  · rintro ⟨_, rfl, hcode, rfl⟩
    exact fetch8_run_of_code hcode.1

/-- By induction, as many bytes as were asked for. -/
theorem fetchBytes_parses (n : Nat) :
    Parses s (fetchBytes n : Exec H (List Byte)) fun bs a => bs.length = n ∧ a = bs := by
  induction n with
  | zero =>
    refine (Parses.pure []).congr fun bs a => ?_
    rw [List.length_eq_zero_iff]
    constructor
    · rintro ⟨rfl, rfl⟩
      exact ⟨rfl, rfl⟩
    · rintro ⟨rfl, rfl⟩
      exact ⟨rfl, rfl⟩
  | succ n ih =>
    refine (fetch8_parses.bind fun b => ih.bind_value fun bs => .pure (b :: bs)).congr
      fun bs a => ?_
    constructor
    · rintro ⟨_, b, bs, rfl, ⟨_, ⟨hn, rfl⟩, rfl⟩, rfl⟩
      exact ⟨congrArg (· + 1) hn, rfl⟩
    · rintro ⟨hn, rfl⟩
      obtain ⟨b, bs, rfl⟩ := List.exists_cons_of_length_eq_add_one hn
      exact ⟨[b], b, bs, rfl, ⟨bs, ⟨Nat.succ.inj hn, rfl⟩, rfl⟩, rfl⟩

/-- A value, with its lowest byte first. -/
theorem fetch_parses (w : Width) :
    Parses s (fetch w : Exec H Dword) fun bs value =>
      bs.length = w.bytes ∧ value = BitVec.ofNat 32 (littleEndian bs) := by
  refine ((fetchBytes_parses w.bytes).bind_value fun _ => .pure _).congr fun bs value => ?_
  constructor
  · rintro ⟨_, ⟨hn, rfl⟩, rfl⟩
    exact ⟨hn, rfl⟩
  · rintro ⟨hn, rfl⟩
    exact ⟨bs, ⟨hn, rfl⟩, rfl⟩

theorem fetchSigned8_parses :
    Parses s (fetchSigned8 : Exec H Dword) fun bs value =>
      ∃ b, bs = [b] ∧ value = b.signExtend 32 :=
  fetch8_parses.bind_value fun _ => .pure _

end Exec

end Ia32
