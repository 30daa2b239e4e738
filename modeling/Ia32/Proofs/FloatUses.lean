import Ia32.Proofs.OperandUses

/-!
# Operands of floating-point instructions

An instruction of the unit with an operand in memory first checks that the unit is
there, then finds the operand, and then reads it or stores to it.  The checks leave
alone what the operand depends on.  A number is read before the unit looks at it.  A
store comes last, and an exception that is not masked keeps it from being made.
-/

namespace Ia32

/-! ## Programs that an exception may stop -/

namespace FloatExec

variable {H : Type} {α β : Type} {L : List SegmentAccess}

/-- Every answer of a program has a property. -/
def Gives (P : α → Prop) (x : FloatExec H α) : Prop :=
  ∀ m : Machine H, Exec.Ends (OptionT.run x) m (fun a? _ => ∀ a ∈ a?, P a) fun _ _ => True

namespace Gives

variable {P : α → Prop}

theorem pure {a : α} (ha : P a) : Gives P (Pure.pure a : FloatExec H α) :=
  fun _ _ h => Option.some.inj h ▸ ha

theorem any (x : FloatExec H α) : Gives (fun _ => True) x := fun m =>
  (Exec.Ends.always (OptionT.run x) m).mono (fun _ _ _ _ _ => trivial) fun _ _ h => h

theorem bind (x : FloatExec H β) {k : β → FloatExec H α} (hk : ∀ b, Gives P (k b)) :
    Gives P (x >>= k) := by
  intro m
  refine Exec.ends_bind.2 ((Exec.Ends.always (OptionT.run x) m).mono (fun b? m₁ _ => ?_) fun _ _ h => h)
  cases b? with
  | some b => exact hk b m₁
  | none => exact nofun

theorem ite {c : Prop} [Decidable c] {x y : FloatExec H α} (hx : Gives P x) (hy : Gives P y) :
    Gives P (if c then x else y) := by
  split
  · exact hx
  · exact hy

end Gives

/-- The bytes of a packed decimal are ten. -/
theorem roundToDecimal_gives (p : Prefixes) (x : Extended) :
    Gives (·.length = 10) (roundToDecimal p x : FloatExec H (List Byte)) := by
  have hinvalid : Gives (·.length = 10) (do
      raise p Exception.invalid
      return indefiniteDecimal : FloatExec H (List Byte)) := .bind _ fun _ => .pure rfl
  have hdecimal (n : Int) : (packedDecimal x.sign n.natAbs).length = 10 := by
    rw [packedDecimal, List.length_append, length_packDigits]
    rfl
  refine .ite hinvalid (.bind _ fun mode => ?_)
  obtain ⟨_ | n, inexact⟩ := x.toInt? mode
  · exact .ite (.bind _ fun _ => hinvalid) hinvalid
  · refine .ite (.bind _ fun _ => ?_) ?_
    · exact .ite (.pure (hdecimal n)) hinvalid
    · exact .ite (.pure (hdecimal n)) hinvalid

/-! ## Stores -/

section Stores

variable [Host H] {e : Effect}

/-- An access that is left out when the program is stopped before it. -/
theorem accesses_after_gives {x : FloatExec H β} {k : β → FloatExec H α} {P : β → Prop}
    (hx : HasEffect e x) (he : e.fault = none) (hP : Gives P x) (hL : ∀ a ∈ L, a.certain = false)
    (hk : ∀ b, P b → Exec.Accesses L (OptionT.run (k b))) :
    Exec.Accesses L (OptionT.run (x >>= k)) := by
  refine .after_gives (.of_hasEffect hx he) hP fun b? hb => ?_
  cases b? with
  | some b => exact hk b (hb b rfl)
  | none => exact .of_quiet (.pure none) hL

/-- A store comes after the checks of the unit, which may stop it, so that it is not certain. -/
theorem accesses_after {x : FloatExec H β} {k : β → FloatExec H α} (hx : HasEffect e x)
    (he : e.fault = none) (hL : ∀ a ∈ L, a.certain = false)
    (hk : ∀ b, Exec.Accesses L (OptionT.run (k b))) : Exec.Accesses L (OptionT.run (x >>= k)) :=
  accesses_after_gives hx he (.any x) hL fun b _ => hk b

variable (hH : Host.Unsegmented H) (p : Prefixes) (seg : Seg) (offset : Dword) {n : Nat}

include hH

/-- Bytes are stored, and then the unit changes. -/
theorem storeThenFloat_accesses {bytes : List Byte} (hn : bytes.length = n)
    {k : Unit → FloatExec H Unit} (hk : ∀ u, HasEffect .floats (k u)) :
    Exec.Accesses ((OperandUse.writes n false).accesses seg offset)
      (OptionT.run (storeBytes seg offset bytes >>= k)) := by
  have hstore : Exec.Accesses ((OperandUse.writes n false).accesses seg offset)
      (OptionT.run (storeBytes seg offset bytes : FloatExec H Unit)) :=
    .andThen (Exec.storeBytes_accesses hH false seg offset hn) fun _ => .pure _
  refine .andThen hstore fun done? => ?_
  cases done? with
  | some u => exact .of_hasEffect (hk u) rfl
  | none => exact .pure none

/-- A number is written as long as its format is. -/
theorem storeReal_accesses (format : RealFormat) (pops : Bool) :
    Exec.Accesses ((OperandUse.writes format.bytes false).accesses seg offset)
      (OptionT.run (storeReal p seg offset format pops : FloatExec H Unit)) := by
  have hL : ∀ a ∈ (OperandUse.writes format.bytes false).accesses seg offset, a.certain = false :=
    List.forall_mem_singleton.2 rfl
  have hlength (mode : Rounding) (x : Extended) :
      (Stored.ofReal format mode x).bytes.length = format.bytes := by
    cases format with
    | single => exact length_bytesOf _ _
    | double => exact length_bytesOf _ _
    | extended => exact x.length_toBytes
  refine accesses_after (requireFull_hasEffect p 0) rfl hL fun _ => ?_
  refine accesses_after (view_hasEffect _) rfl hL fun mode => ?_
  refine accesses_after (view_hasEffect _) rfl hL fun x => ?_
  refine accesses_after (raiseStore_hasEffect p _) rfl hL fun _ => ?_
  exact storeThenFloat_accesses hH seg offset (hlength mode x) fun _ => popIf_hasEffect pops

theorem storeInt_accesses (format : IntFormat) (pops : Bool) :
    Exec.Accesses ((OperandUse.writes format.bytes false).accesses seg offset)
      (OptionT.run (storeInt p seg offset format pops : FloatExec H Unit)) := by
  have hL : ∀ a ∈ (OperandUse.writes format.bytes false).accesses seg offset, a.certain = false :=
    List.forall_mem_singleton.2 rfl
  refine accesses_after (requireFull_hasEffect p 0) rfl hL fun _ => ?_
  refine accesses_after (view_hasEffect _) rfl hL fun x => ?_
  refine accesses_after (roundToFormat_hasEffect p format x) rfl hL fun n => ?_
  exact storeThenFloat_accesses hH seg offset (length_bytesOf _ _) fun _ => popIf_hasEffect pops

theorem storeDecimal_accesses :
    Exec.Accesses ((OperandUse.writes 10 false).accesses seg offset)
      (OptionT.run (storeDecimal p seg offset : FloatExec H Unit)) := by
  have hL : ∀ a ∈ (OperandUse.writes 10 false).accesses seg offset, a.certain = false :=
    List.forall_mem_singleton.2 rfl
  refine accesses_after (requireFull_hasEffect p 0) rfl hL fun _ => ?_
  refine accesses_after (view_hasEffect _) rfl hL fun x => ?_
  refine accesses_after_gives (roundToDecimal_hasEffect p x) rfl (roundToDecimal_gives p x) hL ?_
  intro bytes hn
  exact storeThenFloat_accesses hH seg offset hn fun _ => update_hasEffect Fpu.pop

end Stores

end FloatExec

/-! ## Instructions -/

namespace Exec

variable {H : Type} {m m₁ : Machine H} {p : Prefixes} {mode : ModeByte}

theorem checkAvailable_ends (p : Prefixes) (m : Machine H) :
    Ends (checkAvailable p) m (fun _ m₁ => m₁ = m) fun f _ => f.isSegmentFault = false := by
  unfold checkAvailable checkLock
  simp only [ends_bind, ends_view, ends_ite, ends_throw, ends_pure]
  exact ⟨fun _ => rfl, fun _ => ⟨fun _ => rfl, fun _ => trivial⟩⟩

/-- The checks before a waiting instruction change nothing but the unit. -/
theorem checkReady_ends (p : Prefixes) (m : Machine H) :
    Ends (checkReady p) m (fun _ m₁ => ∃ f, m₁ = { m with fpu := f })
      fun f _ => f.isSegmentFault = false := by
  unfold checkReady
  rw [ends_bind]
  refine (checkAvailable_ends p m).mono ?_ fun _ _ h => h
  rintro _ m₁ rfl
  simp only [ends_bind, ends_view, ends_ite, ends_throw]
  exact ⟨fun _ => rfl, fun _ => ⟨_, rfl⟩⟩

theorem checkLayout_quiet (p : Prefixes) (feature : Feature) :
    Quiet (checkLayout p feature : Exec H Unit) :=
  .after (.view _) fun _ => .ite (.throw rfl) (.pure ())

variable [Host H] {seg : Seg} {offset : Dword} {L : List SegmentAccess}

/-- An instruction of the unit finds its operand after some checks, where it is found without
them. -/
theorem accessesAt_afterChecks {check : Exec H Unit} {k : Seg × Dword → Exec H Unit}
    (hcheck : Ends check m (fun _ m₁ => ∃ f, m₁ = { m with fpu := f })
      fun f _ => f.isSegmentFault = false)
    (hplace : (memoryOperand p mode).run m = .ok (seg, offset) m₁)
    (hk : Accesses L (k (seg, offset))) : AccessesAt m L (do
      check
      k (← memoryOperand p mode)) := by
  obtain ⟨eip, log, rfl⟩ := moved_of_memoryOperand hplace
  have hquiet : AccessesAt m [] check := by
    refine hcheck.mono ?_ fun f _ hf h => absurd h (by simp [hf])
    rintro _ _ ⟨f, rfl⟩
    exact ⟨⟨rfl, rfl⟩, nofun⟩
  refine .after hquiet fun _ m₂ hr => ?_
  obtain ⟨f, rfl⟩ := hcheck.of_ok hr
  have hfound : (memoryOperand p mode).run { m with fpu := f } =
      .ok (seg, offset) { m with eip := eip, log := log, fpu := f } := by
    have hignores := (memoryOperand_ignoresUnit p mode).run_unit m f
    have hrun : memoryOperand p mode m = _ := hplace
    rw [hrun] at hignores
    exact hignores
  exact .of_run hfound ⟨rfl, rfl⟩ (hk _)

theorem updateFpu_quiet (f : Fpu → Fpu) : Quiet (updateFpu f : Exec H Unit) :=
  .of_hasEffect (updateFpu_hasEffect f) rfl

section

variable (hH : Host.Unsegmented H)

include hH

theorem readNumber_accesses (seg : Seg) (offset : Dword) (format : NumberFormat)
    {action : FloatExec.Loaded → FloatExec H Unit}
    (ha : ∀ loaded, FloatExec.HasEffect .floats (action loaded)) :
    Accesses ((OperandUse.reads format.bytes).accesses seg offset) (do
      (action (← FloatExec.readNumber seg offset format)).toExec : Exec H Unit) := by
  have hread : Accesses ((OperandUse.reads format.bytes).accesses seg offset)
      (FloatExec.readNumber seg offset format : Exec H FloatExec.Loaded) :=
    .andThen (loadBytes_accesses hH seg offset format.bytes) fun _ => .pure _
  exact .andThen hread fun loaded => .of_hasEffect (ha loaded).toExec rfl

/-- An instruction of the unit accesses its operand in memory as its use says. -/
theorem runFloat_accessesAt {i : FloatInstruction} (hi : i.hasMemoryOperand = true)
    (hplace : (memoryOperand p mode).run m = .ok (seg, offset) m₁) :
    AccessesAt m (i.use.accesses seg offset) (runFloat p mode i) := by
  have hready := checkReady_ends p m
  have havailable : Ends (checkAvailable p) m (fun _ m₁ => ∃ f, m₁ = { m with fpu := f })
      fun f _ => f.isSegmentFault = false :=
    (checkAvailable_ends p m).mono (fun _ _ h => ⟨m.fpu, h⟩) fun _ _ h => h
  cases i with
  | arithMemory op format =>
    refine accessesAt_afterChecks hready hplace ?_
    exact readNumber_accesses hH seg offset format fun loaded =>
      FloatExec.arithLoaded_hasEffect p op loaded
  | compareMemory format pops =>
    refine accessesAt_afterChecks hready hplace ?_
    exact readNumber_accesses hH seg offset format fun loaded =>
      FloatExec.compareLoaded_hasEffect p loaded pops
  | load format =>
    refine accessesAt_afterChecks hready hplace ?_
    exact readNumber_accesses hH seg offset format fun loaded =>
      FloatExec.load_hasEffect p format loaded
  | storeReal format pops =>
    refine accessesAt_afterChecks hready hplace ?_
    exact .andThen (FloatExec.storeReal_accesses hH p seg offset format pops) fun _ => .pure _
  | storeInt format pops =>
    refine accessesAt_afterChecks hready hplace ?_
    exact .andThen (FloatExec.storeInt_accesses hH p seg offset format pops) fun _ => .pure _
  | storeDecimal =>
    refine accessesAt_afterChecks hready hplace ?_
    exact .andThen (FloatExec.storeDecimal_accesses hH p seg offset) fun _ => .pure _
  | loadControl =>
    refine accessesAt_afterChecks hready hplace ?_
    exact .andThen (load_accesses hH .word seg offset) fun word => updateFpu_quiet _
  | storeControl =>
    refine accessesAt_afterChecks havailable hplace ?_
    exact .after (.view _) fun word => store_accesses hH true .word seg offset _
  | storeStatus =>
    refine accessesAt_afterChecks havailable hplace ?_
    exact .after (.view _) fun word => store_accesses hH true .word seg offset _
  | save =>
    have himage (m : Machine H) : Ends (view (·.fpu.saveImage)) m
        (fun image _ => image.length = Fpu.imageSize) fun _ _ => True := m.fpu.length_saveImage
    refine accessesAt_afterChecks havailable hplace (.after (checkLayout_quiet p _) fun _ => ?_)
    exact .after_gives (.view _) himage fun image hn =>
      .andThen (storeBytes_accesses hH true seg offset hn) fun _ => updateFpu_quiet _
  | restore =>
    refine accessesAt_afterChecks hready hplace (.after (checkLayout_quiet p _) fun _ => ?_)
    exact .andThen (loadBytes_accesses hH seg offset _) fun image => updateFpu_quiet _
  | _ => cases hi

end

end Exec

end Ia32
