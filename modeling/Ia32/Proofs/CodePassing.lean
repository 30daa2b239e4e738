import Ia32.Proofs.FloatUses
import Ia32.Proofs.InstructionForms
import Ia32.Proofs.RepeatedStrings
import Ia32.Proofs.StandingPrograms

/-!
# Programs that pass code

An instruction has no length of its own in the program: each part of it takes what it
needs from the code.  `Exec.Skips` says of a part which bytes it takes, and that the
code that follows is still there.  `Exec.Advances` says of a whole program which bytes
the instruction pointer has passed at its end.  A program that stands passes none, so
it does not matter how an instruction ends once its operands are taken.
-/

namespace Ia32

open Host Exec

variable {H α β : Type} [Host H] {m m₁ m' : Machine H} {bs cs : List Byte}

namespace Machine

/-- The instruction pointer has moved behind some bytes of the code. -/
structure Passes (m : Machine H) (code : List Byte) (m' : Machine H) : Prop where
  holds : m.HoldsCode m.eip code
  eip : m'.eip = m.eip + BitVec.ofNat 32 code.length

/-- The instruction pointer has moved behind some bytes of the code, and the code has not
changed. -/
structure Skips (m : Machine H) (code : List Byte) (m' : Machine H) : Prop
    extends m.Passes code m' where
  host : m'.host = m.host
  segs : m'.segs = m.segs

/-- Without a byte nothing moves. -/
theorem passes_nil (h : m'.eip = m.eip) : m.Passes [] m' :=
  ⟨trivial, h.trans (BitVec.add_zero _).symm⟩

/-- What stands at the pointer is passed when the pointer is moved behind it. -/
theorem skips_past (h : m.HoldsCode m.eip bs) : m.Skips bs (m.past bs) := ⟨⟨h, rfl⟩, rfl, rfl⟩

theorem Skips.passes_append (h : m.Skips bs m₁) (h' : m₁.Passes cs m') :
    m.Passes (bs ++ cs) m' := by
  have hcode : m.HoldsCode (m.eip + BitVec.ofNat 32 bs.length) cs :=
    h.eip ▸ h'.holds.congr h.segs.symm fun x _ => by rw [h.host]
  refine ⟨holdsCode_append.2 ⟨h.holds, hcode⟩, ?_⟩
  rw [h'.eip, h.eip, BitVec.add_assoc, ← BitVec.ofNat_add, ← List.length_append]

theorem Skips.is32 (h : m.Skips bs m') : m'.segs.cs.is32 = m.segs.cs.is32 :=
  congrArg (·.cs.is32) h.segs

/-- Bytes that are passed one part after the other are passed together. -/
theorem Skips.append (h : m.Skips bs m₁) (h' : m₁.Skips cs m') : m.Skips (bs ++ cs) m' :=
  ⟨h.passes_append h'.toPasses, h'.host.trans h.host, h'.segs.trans h.segs⟩

end Machine

namespace Exec

variable {wide : Bool} {R S : List Byte → α → Prop} {L : List Byte → Prop}

/-! ## Taking code -/

/-- A program that has an answer has taken bytes from the code, as the relation says.  The default
width of the code is 32 or 16 bits. -/
def Skips (wide : Bool) (x : Exec H α) (R : List Byte → α → Prop) : Prop :=
  ∀ m a m', m.segs.cs.is32 = wide → x.run m = .ok a m' → ∃ code, R code a ∧ m.Skips code m'

/-- A program that takes nothing from the code and leaves the code as it is. -/
abbrev Keeps (wide : Bool) (x : Exec H α) : Prop := Skips wide x fun code _ => code = []

namespace Skips

theorem mono {x : Exec H α} (h : Skips wide x R) (hR : ∀ code a, R code a → S code a) :
    Skips wide x S := by
  intro m a m' hw hrun
  obtain ⟨code, hcode, hskips⟩ := h m a m' hw hrun
  exact ⟨code, hR code a hcode, hskips⟩

theorem pure {a : α} (h : R [] a) : Skips wide (Pure.pure a : Exec H α) R := by
  rintro m _ _ _ ⟨⟩
  exact ⟨[], h, Machine.passes_nil rfl, rfl, rfl⟩

/-- The code of two programs, one after the other, is the code of both. -/
theorem bind {T : List Byte → β → Prop} {x : Exec H β} {k : β → Exec H α} (hx : Skips wide x T)
    (hk : ∀ code b, T code b → Skips wide (k b) fun rest a => R (code ++ rest) a) :
    Skips wide (x >>= k) R := by
  intro m a m' hw hrun
  obtain ⟨b, m₁, hfirst, hrest⟩ := run_bind_eq_ok_iff.1 hrun
  obtain ⟨code, hcode, hskips⟩ := hx m b m₁ hw hfirst
  obtain ⟨rest, hR, hskips'⟩ := hk code b hcode m₁ a m' (hskips.is32.trans hw) hrest
  exact ⟨code ++ rest, hR, hskips.append hskips'⟩

/-- What is made of the bytes does not matter. -/
theorem map {x : Exec H β} {f : β → α} (hx : Skips wide x fun code _ => L code) :
    Skips wide (f <$> x) fun code _ => L code := by
  rw [map_eq_pure_bind]
  exact hx.bind fun code _ hcode => pure (by rwa [List.append_nil])

theorem ite {c : Prop} [Decidable c] {x y : Exec H α} (hx : c → Skips wide x R)
    (hy : ¬c → Skips wide y R) : Skips wide (if c then x else y) R := by
  split
  next hc => exact hx hc
  next hc => exact hy hc

/-- A program after one that keeps the code. -/
theorem after {x : Exec H β} {k : β → Exec H α} (hx : Keeps wide x)
    (hk : ∀ b, Skips wide (k b) R) : Skips wide (x >>= k) R := by
  refine hx.bind fun code b hcode => ?_
  subst hcode
  exact hk b

/-- A program that does nothing but take bytes from the code. -/
theorem of_parses {x : Exec H α} {T : Processor → List Byte → α → Prop}
    (h : ∀ s, Parses s x (T s)) (hT : ∀ s code a, s.segs.cs.is32 = wide → T s code a → R code a) :
    Skips wide x R := by
  intro m a m' hw hrun
  obtain ⟨code, hcode, hholds, rfl⟩ := (h m.toProcessor m m.hasState_self a m').1 hrun
  exact ⟨code, hT _ code a hw hcode, Machine.skips_past hholds⟩

end Skips

/-- A program that stands keeps the code, if its footprint has no memory and no ports. -/
theorem keeps_of_hasEffect {e : Effect} {x : Exec H α} [hs : Stands x] (hx : HasEffect e x)
    (he : e.answer ⊆ [.stackPointer]) : Keeps wide x := by
  intro m a m' _ hrun
  have hall : CoversSegments (fun _ _ _ => True) m := fun _ _ _ _ _ => trivial
  have hagree := ((hx hall).of_ok hrun).mono he
  have hhost : m'.host = m.host :=
    hagree.host.eq_of_nothing (by simp [Footprint.HasMemory]) (by decide)
  exact ⟨[], rfl, Machine.passes_nil (hs.eip_eq hrun), hhost, hagree.segs⟩

/-- An observation keeps the code. -/
theorem keeps_of_observes {x : Exec H α} (hx : Observes x) : Keeps wide x := by
  intro m a m' _ hrun
  obtain rfl := (hx m).of_ok hrun
  exact ⟨[], rfl, Machine.passes_nil rfl, rfl, rfl⟩

theorem pop_keeps (w : Width) : Keeps wide (pop w : Exec H Dword) :=
  keeps_of_hasEffect (pop_hasEffect w) (List.Subset.refl _)

/-! ## Operands and immediates -/

theorem fetch8_skips : Skips wide (fetch8 : Exec H Byte) fun code b => code = [b] :=
  .of_parses (fun _ => fetch8_parses) fun _ _ _ _ h => h

theorem fetch_skips (w : Width) :
    Skips wide (fetch w : Exec H Dword) fun code _ => code.length = w.bytes :=
  .of_parses (fun _ => fetch_parses w) fun _ _ _ _ h => h.1

theorem fetchSigned8_skips :
    Skips wide (fetchSigned8 : Exec H Dword) fun code _ => code.length = 1 :=
  .of_parses (fun _ => fetchSigned8_parses) fun _ _ _ _ h => by
    obtain ⟨b, rfl, -⟩ := h
    rfl

/-- An immediate operand takes one byte when it is short, and as many as the width has
otherwise. -/
theorem fetchImmediate_skips (w : Width) (short : Bool) :
    Skips wide (fetchImmediate w short : Exec H Dword)
      fun code _ => code.length = if short then 1 else w.bytes := by
  refine .ite (fun hshort => ?_) fun hfull => ?_
  · rw [if_pos hshort, bind_pure_comp]
    exact fetchSigned8_skips.map
  · rw [if_neg hfull]
    exact fetch_skips w

theorem fetchDistance_skips (w : Width) (short : Bool) :
    Skips wide (fetchDistance w short : Exec H Dword)
      fun code _ => code.length = if short then 1 else w.bytes := by
  refine .ite (fun hshort => ?_) fun hfull => ?_
  · rw [if_pos hshort]
    exact fetchSigned8_skips
  · rw [if_neg hfull, bind_pure_comp]
    exact (fetch_skips w).map

variable (p : Prefixes)

theorem checkLock_keeps : Keeps wide (checkLock p : Exec H Unit) :=
  keeps_of_hasEffect (checkLock_hasEffect p) (List.nil_subset _)

/-- The code behind a mode byte is what the tables call for. -/
theorem operand_skips (b : ModeByte) :
    Skips wide (operand p b : Exec H Operand)
      fun code _ => b.OperandCode (.ofDefault wide p.addressSize) code := by
  by_cases hregister : b.isRegister = true
  · rw [operand, if_pos hregister]
    exact .pure (by rw [ModeByte.OperandCode, if_pos hregister])
  · have hmode : b.mode ≠ 3 := fun h => hregister (beq_iff_eq.2 h)
    refine .of_parses (fun s => operand_parses p hmode) fun s code place hw h => ?_
    obtain ⟨c, hfits, rfl, -⟩ := h
    have hwidth : p.addressWidth s = .ofDefault wide p.addressSize := by
      rw [← hw]
      rfl
    rw [ModeByte.OperandCode, if_neg hregister, ← hwidth]
    exact ⟨c, hfits, rfl⟩

theorem fetchOperand_skips :
    Skips wide (fetchOperand p : Exec H (ModeByte × Operand)) fun code a =>
      ∃ first rest, code = first :: rest ∧ a.1 = .ofByte first ∧
        a.1.OperandCode (.ofDefault wide p.addressSize) rest := by
  refine fetch8_skips.bind fun code first hcode => (operand_skips p (.ofByte first)).bind
    fun rest place hrest => .pure ?_
  exact ⟨first, rest, by rw [hcode, List.append_nil]; rfl, rfl, hrest⟩

theorem memoryOperand_skips (b : ModeByte) :
    Skips wide (memoryOperand p b : Exec H (Seg × Dword))
      fun code _ => b.OperandCode (.ofDefault wide p.addressSize) code := by
  refine (operand_skips p b).bind fun code place hcode => ?_
  cases place with
  | memory seg offset => exact .pure (by rwa [List.append_nil])
  | register r =>
    rintro _ _ _ _ ⟨⟩

theorem shiftCount_skips (source : CountSource) :
    Skips wide (shiftCount source : Exec H Nat)
      fun code _ => code.length = if source = .immediate then 1 else 0 := by
  cases source with
  | one => exact .pure rfl
  | counter => exact .after (keeps_of_observes (.view _)) fun _ => .pure rfl
  | immediate =>
    rw [shiftCount, bind_pure_comp]
    exact (fetch_skips .byte).map

theorem portNumber_skips (source : PortSource) :
    Skips wide (portNumber p source : Exec H Word)
      fun code _ => code.length = if source = .immediate then 1 else 0 := by
  cases source with
  | immediate =>
    refine fetch8_skips.bind fun code b hcode => .after (checkLock_keeps p) fun _ => .pure ?_
    rw [hcode]
    rfl
  | register =>
    refine .after (checkLock_keeps p) fun _ => ?_
    exact (keeps_of_observes (.view _)).mono fun code _ hcode => congrArg List.length hcode

theorem checkAvailable_keeps : Keeps wide (checkAvailable p : Exec H Unit) := by
  intro m _ m' _ hrun
  obtain rfl := (checkAvailable_ends p m).of_ok hrun
  exact ⟨[], rfl, Machine.passes_nil rfl, rfl, rfl⟩

theorem checkReady_keeps : Keeps wide (checkReady p : Exec H Unit) := by
  intro m _ m' _ hrun
  obtain ⟨f, rfl⟩ := (checkReady_ends p m).of_ok hrun
  exact ⟨[], rfl, Machine.passes_nil rfl, rfl, rfl⟩

/-! ## Advancing -/

variable {p}

/-- A program that has an answer has moved the instruction pointer behind some bytes of the code, as
the predicate says. -/
def Advances (wide : Bool) (x : Exec H α) (L : List Byte → Prop) : Prop :=
  ∀ m a m', m.segs.cs.is32 = wide → x.run m = .ok a m' → ∃ code, L code ∧ m.Passes code m'

namespace Advances

variable {T : List Byte → β → Prop} {x : Exec H β} {k : β → Exec H α}

theorem mono {x : Exec H α} {L' : List Byte → Prop} (h : Advances wide x L)
    (hL : ∀ code, L code → L' code) : Advances wide x L' := by
  intro m a m' hw hrun
  obtain ⟨code, hcode, hpasses⟩ := h m a m' hw hrun
  exact ⟨code, hL code hcode, hpasses⟩

/-- A fault ends the step, and nothing is told about the code then. -/
theorem throw (f : Fault) : Advances wide (MonadExcept.throw f : Exec H α) L := by
  rintro _ _ _ _ ⟨⟩

theorem throw_bind (f : Fault) : Advances wide (MonadExcept.throw f >>= k) L := by
  rintro _ _ _ _ ⟨⟩

theorem ite {c : Prop} [Decidable c] {x y : Exec H α} (hx : c → Advances wide x L)
    (hy : ¬c → Advances wide y L) : Advances wide (if c then x else y) L := by
  split
  next hc => exact hx hc
  next hc => exact hy hc

/-- A program that stands passes no code. -/
theorem stand {x : Exec H α} (hs : Stands x) (h : L []) : Advances wide x L :=
  fun _ _ _ _ hrun => ⟨[], h, Machine.passes_nil (hs.eip_eq hrun)⟩

/-- A program after one that takes code. -/
theorem take (hx : Skips wide x T)
    (hk : ∀ code b, T code b → Advances wide (k b) fun rest => L (code ++ rest)) :
    Advances wide (x >>= k) L := by
  intro m a m' hw hrun
  obtain ⟨b, m₁, hfirst, hrest⟩ := run_bind_eq_ok_iff.1 hrun
  obtain ⟨code, hcode, hskips⟩ := hx m b m₁ hw hfirst
  obtain ⟨rest, hL, hpasses⟩ := hk code b hcode m₁ a m' (hskips.is32.trans hw) hrest
  exact ⟨code ++ rest, hL, hskips.passes_append hpasses⟩

/-- A program after one that keeps the code. -/
theorem after (hx : Keeps wide x) (hk : ∀ b, Advances wide (k b) L) :
    Advances wide (x >>= k) L := by
  refine .take hx fun code b hcode => ?_
  subst hcode
  exact hk b

/-- A program that stands after one that has advanced. -/
theorem andThen (hx : Advances wide x L) (hk : ∀ b, Stands (k b)) :
    Advances wide (x >>= k) L := by
  intro m a m' hw hrun
  obtain ⟨b, m₁, hfirst, hrest⟩ := run_bind_eq_ok_iff.1 hrun
  obtain ⟨code, hcode, hpasses⟩ := hx m b m₁ hw hfirst
  exact ⟨code, hcode, hpasses.holds, ((hk b).eip_eq hrest).trans hpasses.eip⟩

/-- All the code is taken first. -/
theorem taking (hx : Skips wide x fun code _ => L code) (hk : ∀ b, Stands (k b)) :
    Advances wide (x >>= k) L :=
  .take hx fun _ b hcode => .stand (hk b) (by rwa [List.append_nil])

/-- The width of operands is told by the default width and the marker. -/
theorem operandWidth {k : Width → Exec H α}
    (hk : Advances wide (k (.ofDefault wide p.operandSize)) L) :
    Advances wide (Exec.operandWidth p >>= k) L := by
  intro m a m' hw hrun
  refine hk m a m' hw ?_
  rw [← hw]
  exact hrun

theorem keepingStack {x : Exec H α} (hx : Advances wide x L) :
    Advances wide (Exec.keepingStack x) L := fun m a m' hw hrun =>
  hx m a m' hw (run_of_keepingStack hrun)

end Advances

end Exec

end Ia32
