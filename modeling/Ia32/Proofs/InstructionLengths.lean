import Ia32.Proofs.AdvancingInstructions

/-!
# Lengths of instructions in steps

A step that goes on to the next instruction moves the instruction pointer by the
length that the tables give for the code.  The markers and the opcode are taken first,
and then what the form of the instruction calls for.  So the length depends on the
bytes of the code and on its default width, and on nothing else.
-/

namespace Ia32

open Host Exec

variable {H : Type} [Host H]

/-! ## Openings -/

theorem Form.ofCode?_cons {opcode : Byte} (h : opcode ≠ 0x0F) (rest : List Byte) :
    ofCode? (opcode :: rest) = (ofOpcode? opcode).map (·, rest) := by
  unfold ofCode?
  split
  next heq => exact absurd (List.cons.inj heq).1 h
  next heq =>
    obtain ⟨rfl, rfl⟩ := List.cons.inj heq
    rfl
  next heq => cases heq

namespace Machine

variable {m m₁ m' : Machine H} {p : Prefixes} {i : Instruction}

/-- Up to its opcode an instruction is as the tables say. -/
theorem Fetches.exists_opening (h : m.Fetches p i m₁) :
    ∃ opening, m.Skips opening m₁ ∧ ∀ wide code, i.form.Follows wide p code → ∀ rest,
      instructionLength? wide (opening ++ code ++ rest) = some (opening ++ code).length := by
  obtain ⟨markers, opcode, hopens⟩ := h.exists_opens
  have hmarkers := Prefixes.mem_markerBytes_of_extendAll? hopens.markers
  have hoperands : p.operandSize = markers.contains 0x66 :=
    Prefixes.operandSize_of_extendAll? hopens.markers
  have haddresses : p.addressSize = markers.contains 0x67 :=
    Prefixes.addressSize_of_extendAll? hopens.markers
  have hfits {wide : Bool} {code : List Byte} (h : i.form.Follows wide p code) :
      i.form.Fits (.ofDefault wide (markers.contains 0x66))
        (.ofDefault wide (markers.contains 0x67)) code := by
    rw [← hoperands, ← haddresses]
    exact h
  obtain ⟨eip, log, hm₁⟩ := h.moved
  have hhost : m₁.host = m.host := by rw [hm₁]
  have hsegs : m₁.segs = m.segs := by rw [hm₁]
  obtain ⟨-, ⟨hone, hdecode, heip⟩ | ⟨rfl, second, hsecond, hdecode, heip⟩⟩ :=
    hopens.fetches_cases h
  · refine ⟨markers ++ [opcode], ⟨⟨hopens.holds, ?_⟩, hhost, hsegs⟩, fun wide code hcode => ?_⟩
    · rw [heip, List.length_append, List.length_singleton]
    · refine instructionLength?_append hmarkers (by simpa using hopens.opcode) (fun rest => ?_)
        (hfits hcode)
      rw [List.singleton_append, Form.ofCode?_cons hone, Instruction.form_decode hdecode]
      rfl
  · have hholds : m.HoldsCode m.eip (markers ++ [0x0F] ++ [second]) :=
      holdsCode_append.2 ⟨hopens.holds, by rwa [List.length_append], trivial⟩
    rw [List.append_assoc] at hholds
    refine ⟨markers ++ [0x0F, second], ⟨⟨hholds, ?_⟩, hhost, hsegs⟩, fun wide code hcode => ?_⟩
    · rw [heip, List.length_append, BitVec.add_assoc]
      exact congrArg (m.eip + ·) (BitVec.ofNat_add (markers.length + 1) 1).symm
    · have hescape : decide ((0x0F : Byte) ∉ markerBytes) = true := by decide
      refine instructionLength?_append hmarkers hescape (fun rest => ?_)
        (hfits hcode)
      change (Form.ofExtended? second).map _ = _
      rw [Instruction.form_decodeExtended hdecode]
      rfl

/-! ## Steps -/

/-- Of two byte sequences at one place of the code, one begins with the other. -/
theorem HoldsCode.prefix_or_prefix {offset : Dword} {bs cs : List Byte}
    (h : m.HoldsCode offset bs) (h' : m.HoldsCode offset cs) : bs <+: cs ∨ cs <+: bs := by
  induction bs generalizing offset cs with
  | nil => exact .inl (List.nil_prefix)
  | cons b bs ih =>
    cases cs with
    | nil => exact .inr (List.nil_prefix)
    | cons c cs =>
      obtain rfl : b = c := Option.some.inj (h.1.symm.trans h'.1)
      exact (ih h.2 h'.2).imp (List.prefix_cons_inj b).2 (List.prefix_cons_inj b).2

/-- The instruction at the instruction pointer is a string instruction with a repeat marker. -/
def RepeatsString (m : Machine H) : Prop :=
  m.instruction?.any (fun (p, i) => i.isString && p.repeats.isSome) = true

instance (m : Machine H) : Decidable m.RepeatsString := inferInstanceAs (Decidable (_ = true))

/-- A step is completed, and its instruction neither transfers control nor is repeated. -/
structure Proceeds (m : Machine H) : Prop where
  completed : m.step.1 = .completed
  stays : ¬m.TransfersControl
  once : ¬m.RepeatsString

/-- The code holds an instruction, whatever follows it. -/
structure HoldsInstruction (m : Machine H) (code : List Byte) : Prop where
  holds : m.HoldsCode m.eip code
  length : ∀ rest, instructionLength? m.segs.cs.is32 (code ++ rest) = some code.length

/-- A step that goes on to the next instruction has passed one instruction of the code. -/
theorem Proceeds.exists_holdsInstruction (h : m.Proceeds) :
    ∃ code, m.HoldsInstruction code ∧ m.step.2.eip = m.eip + BitVec.ofNat 32 code.length := by
  obtain ⟨hcompleted, hstays, honce⟩ := h
  have hruns := m.step_runs
  generalize m.step.1 = ending, m.step.2 = m' at hruns hcompleted ⊢
  subst hcompleted
  cases hruns with
  | @completed p i m₁ m₂ hfetch hrun =>
    have hp : i.isString = true → p.repeats = none := by
      intro hi
      rw [RepeatsString, hfetch.instruction?] at honce
      simpa [hi] using honce
    have ht : value? (transfersControl p i) m₁ = some false := by
      obtain ⟨transfers, hvalue⟩ := exists_transfersControl hrun
      rw [TransfersControl, fetchTransfersControl, value?_bind_of_ok hfetch.run] at hstays
      cases transfers with
      | false => exact hvalue
      | true => exact absurd hvalue hstays
    obtain ⟨opening, hskips, hlength⟩ := hfetch.exists_opening
    obtain ⟨code, hcode, hpasses⟩ := runInstruction_passes hp ht hrun
    rw [hskips.is32] at hcode
    have hwhole := hskips.passes_append hpasses
    exact ⟨opening ++ code, ⟨hwhole.holds, hlength _ code hcode⟩, hwhole.eip⟩

/-- The code holds one instruction at a place. -/
theorem HoldsInstruction.length_eq {code code' : List Byte} (h : m.HoldsInstruction code)
    (h' : m.HoldsInstruction code') : code.length = code'.length := by
  have hlength := h.length []
  have hlength' := h'.length []
  rw [List.append_nil] at hlength hlength'
  obtain ⟨rest, rfl⟩ | ⟨rest, rfl⟩ := h.holds.prefix_or_prefix h'.holds
  · exact Option.some.inj ((h.length rest).symm.trans hlength')
  · exact Option.some.inj (hlength.symm.trans (h'.length rest))

/-- A step that goes on to the next instruction moves the instruction pointer by the length that the
tables give for the code at it.  So it moves by the same length on every machine with this code,
whatever else the machine holds. -/
theorem step_advances (h : m.Proceeds) :
    ∃ code, m.HoldsCode m.eip code ∧
      (∀ rest, instructionLength? m.segs.cs.is32 (code ++ rest) = some code.length) ∧
      m.step.2.eip = m.eip + BitVec.ofNat 32 code.length ∧
      ∀ m' : Machine H, m'.Proceeds → m'.segs.cs.is32 = m.segs.cs.is32 →
        m'.HoldsCode m'.eip code → m'.step.2.eip = m'.eip + BitVec.ofNat 32 code.length := by
  obtain ⟨code, hcode, heip⟩ := h.exists_holdsInstruction
  refine ⟨code, hcode.holds, hcode.length, heip, fun m' h' hwide hholds => ?_⟩
  obtain ⟨code', hcode', heip'⟩ := h'.exists_holdsInstruction
  have hsame : m'.HoldsInstruction code := ⟨hholds, by rw [hwide]; exact hcode.length⟩
  rw [heip', hcode'.length_eq hsame]

/-- A machine with 16-bit code that adds an immediate to a word of the stack.  A marker calls for a
32-bit address, which has a scale byte and a displacement. -/
def addingImmediate : Machine Ram :=
  let bytes := #[0x67, 0x81, 0x44, 0x24, 0x10, 0x34, 0x12]
  let m := Machine.initial ⟨⟨bytes⟩, none, 0, #[]⟩ {}
  { m with eip := 0, segs := { Segments.initial with cs := .realMode 0 false } }

/-- The instruction has seven bytes. -/
theorem step_advances_addingImmediate :
    addingImmediate.Proceeds ∧ ∃ code, addingImmediate.HoldsCode 0 code ∧
      (∀ rest, instructionLength? false (code ++ rest) = some code.length) ∧
      (7 : Dword) = 0 + BitVec.ofNat 32 code.length := by
  have hproceeds : addingImmediate.Proceeds :=
    ⟨by decide +kernel, by decide +kernel, by decide +kernel⟩
  have heip : addingImmediate.step.2.eip = 7 := by decide +kernel
  obtain ⟨code, hholds, hlength, hstep, -⟩ := step_advances hproceeds
  exact ⟨hproceeds, code, hholds, hlength, heip ▸ hstep⟩

end Machine

end Ia32
