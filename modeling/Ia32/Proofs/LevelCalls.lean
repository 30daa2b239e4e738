import Ia32.Proofs.AccessedEntries
import Ia32.Proofs.CallInstructions
import Ia32.Proofs.ControlTransfers
import Ia32.Proofs.PrivilegeLevels

/-!
# Calls that keep the privilege level

A near call leaves the offset of the next instruction on the stack, and a far call
leaves the selector of the code segment above it.  Both values have the width of
operands, but for a call through a gate, which chooses the width itself.  The stack
stays the same one, and so do all registers but the stack pointer.
-/

namespace Ia32

open Host Exec

variable {H : Type} [Host H] {m m' : Machine H} {A : Dword → Prop} {w : Width}
  {values : List Dword} {cs : SegmentCache}

/-! ## Frames -/

/-- Values that a call has left on top of the stack.  The stack segment has granted their stores. -/
structure Machine.Framed (m : Machine H) (w : Width) (values : List Dword) : Prop where
  holds : m.Holds w values
  granted : ∀ k < values.length,
    m.segs.ss.Grants m.toProcessor .write (slot m.toProcessor w m.sp k) w.bytes
  fits : m.segs.ss.contains m.sp (values.length * w.bytes) = true

/-- A call has left a frame and has gone on in a code segment.  Nothing is said of the instruction
pointer, so that the same holds when the next instruction is taken from the code. -/
structure LeavesFrame (A : Dword → Prop) (m : Machine H) (w : Width) (values : List Dword)
    (cs : SegmentCache) (m' : Machine H) : Prop where
  framed : m'.Framed w values
  after : ∃ host eip log retired, StoredIn A m.host host ∧
    m' = { m with
      toProcessor := { (m.belowStack w values.length).setSeg .cs cs with eip := eip }
      host := host
      log := log
      retired := retired }

/-- The descriptor tables are in a region.  They overlap neither each other nor the frame of a far
call. -/
structure Machine.TablesClear (A : Dword → Prop) (m : Machine H) (w : Width) : Prop where
  entries : ∀ selector a, EntryByte m.toProcessor selector a → A a
  apart : ∀ selector a, EntryByte m.toProcessor selector a → ¬(m.belowStack w 2).StackByte w 2 a
  tables : TablesApart m.toProcessor

/-- The values of a far return address. -/
def Processor.returnAddress (s : Processor) : List Dword :=
  [s.eip, s.segs.cs.selector.setWidth 32]

/-- A far call in protected mode has left a return address.  It has kept the level and the
descriptors. -/
structure LeavesReturn (A : Dword → Prop) (m : Machine H) (w : Width) (m' : Machine H) : Prop where
  leaves : ∃ cs, LeavesFrame A m w m.returnAddress cs m' ∧ cs.pl = m.cpl
  kept : ∀ selector d, m.farView.descriptor? selector = some d → d.KeptIn m' selector

/-- The machine after a far return address is left on the stack. -/
def Machine.afterReturnAddress (m : Machine H) (w : Width) : Machine H :=
  { m with
    toProcessor := m.belowStack w 2
    host := storeAll
      (storeAll m.host ((m.belowStack w 2).stackAddress w 0) (bytesOf w.bytes m.eip.toNat))
      ((m.belowStack w 2).stackAddress w 1)
      (bytesOf w.bytes (m.segs.cs.selector.setWidth 32).toNat) }

namespace Machine

theorem storedIn_afterReturnAddress (hA : ∀ a, (m.belowStack w 2).StackByte w 2 a → A a) :
    StoredIn A m.host (m.afterReturnAddress w).host := by
  have hplace (k : Nat) (hk : k < 2) (value : Dword) :
      Within A ((m.belowStack w 2).stackAddress w k) (bytesOf w.bytes value.toNat).length := by
    intro i hi
    rw [length_bytesOf] at hi
    exact hA _ ⟨k, hk, i, hi, rfl⟩
  exact (storedIn_storeAll (hplace 0 (by decide) _)).trans
    (storedIn_storeAll (hplace 1 (by decide) _))

theorem holds_afterReturnAddress (hb : Backs A m.host)
    (hA : ∀ a, (m.belowStack w 2).StackByte w 2 a → A a) :
    (m.afterReturnAddress w).Holds w m.returnAddress := by
  have hplace (k : Nat) (hk : k < 2) : Within A ((m.belowStack w 2).stackAddress w k) w.bytes :=
    fun i hi => hA _ ⟨k, hk, i, hi, rfl⟩
  have hfirst : StoredIn A m.host (storeAll m.host ((m.belowStack w 2).stackAddress w 0)
      (bytesOf w.bytes m.eip.toNat)) :=
    storedIn_storeAll (by rw [length_bytesOf]; exact hplace 0 (by decide))
  intro k value hv
  match k with
  | 0 =>
    cases hv
    refine (hostBytes_storeValue (hb.of_storedIn hfirst) (hplace 1 (by decide))
      (hplace 0 (by decide)) (by decide) (by decide) _).trans ?_
    rw [if_neg (by decide)]
    refine (hostBytes_storeValue hb (hplace 0 (by decide)) (hplace 0 (by decide)) (by decide)
      (by decide) _).trans ?_
    rw [if_pos rfl]
  | 1 =>
    cases hv
    refine (hostBytes_storeValue (hb.of_storedIn hfirst) (hplace 1 (by decide))
      (hplace 1 (by decide)) (by decide) (by decide) _).trans ?_
    rw [if_pos rfl]
  | k + 2 => cases hv

end Machine

namespace Exec

/-! ## Near calls -/

/-- A near call that succeeds leaves the offset of the next instruction. -/
theorem callTo_leaves (target : Dword) (hb : Backs A m.host)
    (hA : ∀ a, (m.belowStack w 1).StackByte w 1 a → A a) :
    Ends (callTo w target) m (fun _ m' => LeavesFrame A m w [m.eip] m.segs.cs m')
      fun _ _ => True := by
  rw [callTo, ends_bind]
  refine (checkTarget_ends _ m).mono ?_ fun _ _ h => h
  rintro _ m ⟨rfl, -⟩
  rw [ends_bind, ends_view, ends_bind]
  refine (push_ends w m.eip m).mono ?_ fun _ _ h => h
  rintro _ _ ⟨rfl, hgrants⟩
  have hholds : (m.afterPush w m.eip).Holds w [m.eip] :=
    (m.holds_nil w).afterPush hb hA (by decide)
  have hstored : StoredIn A m.host (m.afterPush w m.eip).host :=
    Machine.storedIn_afterPush fun i hi => hA _ ⟨0, Nat.one_pos, i, hi, rfl⟩
  rw [goTo, ends_update]
  refine ⟨⟨hholds, fun k hk => ?_, ?_⟩, _, w.truncate target, _, _, hstored, rfl⟩
  · rw [List.length_singleton, Nat.lt_one_iff] at hk
    subst hk
    exact ⟨hgrants.rights, ((m.belowStack w 1).slot_zero w).symm ▸ hgrants.bounds⟩
  · rw [List.length_singleton, Nat.one_mul]
    exact hgrants.bounds

/-! ## Far calls -/

theorem reserve_ends (bytes : Nat) (m : Machine H) :
    Ends (reserve bytes) m
      (fun top m' => m' = m ∧ top = m.spPlus (-(BitVec.ofNat 32 bytes)) ∧
        m.segs.ss.contains top bytes = true) fun _ _ => True := by
  rw [reserve, ends_bind, ends_view, ends_bind, ends_view]
  exact ends_guard (fun _ _ _ => trivial) rfl fun h => ⟨rfl, rfl, by simpa using h⟩

theorem storeReturn_ends (w : Width) (m : Machine H) :
    Ends (storeReturn w (m.belowStack w 2).sp) m
      (fun _ m' => m' = m.afterReturnAddress w ∧ ∀ k < 2,
        m.segs.ss.Grants m.toProcessor .write
          (slot m.toProcessor w (m.belowStack w 2).sp k) w.bytes)
      fun _ _ => True := by
  have hzero : slot m.toProcessor w (m.belowStack w 2).sp 0 = (m.belowStack w 2).sp :=
    (m.belowStack w 2).slot_zero w
  rw [storeReturn, ends_bind, ends_view, ends_bind]
  refine (store_ends w .ss _ _ m).mono ?_ fun _ _ h => h
  rintro _ _ ⟨rfl, hfirst⟩
  rw [ends_bind, ends_view, ends_bind, ends_view, ends_bind]
  refine (store_ends w .ss _ _ _).mono ?_ fun _ _ h => h
  rintro _ _ ⟨rfl, hsecond⟩
  have hplace : (m.belowStack w 2).stackAddress w 0 = m.segs.ss.base + (m.belowStack w 2).sp :=
    congrArg (m.segs.ss.base + ·) hzero
  have hprocessor : m.setSp (m.belowStack w 2).sp = m.belowStack w 2 :=
    congrArg m.setSp m.sp_addSp
  rw [ends_update]
  refine ⟨?_, fun k hk => ?_⟩
  · rw [Machine.afterReturnAddress, hplace]
    show ({ m with toProcessor := m.setSp (m.belowStack w 2).sp, host := _ } : Machine H) = _
    rw [hprocessor]
    rfl
  · match k with
    | 0 => exact hzero.symm ▸ hfirst
    | 1 => exact hsecond
    | k + 2 => omega

/-- The frame of a far call, which goes on in a code segment. -/
theorem leavesFrame_enter {host : H} (hb : Backs A m.host) (hs : StoredIn A m.host host)
    (hA : ∀ a, (m.belowStack w 2).StackByte w 2 a → A a)
    (hfits : m.segs.ss.contains (m.belowStack w 2).sp (2 * w.bytes) = true)
    (hgrants : ∀ k < 2, m.segs.ss.Grants m.toProcessor .write
      (slot m.toProcessor w (m.belowStack w 2).sp k) w.bytes) (cs : SegmentCache) (offset : Dword) :
    LeavesFrame A m w m.returnAddress cs
      { { m with host := host }.afterReturnAddress w with
        toProcessor := { (m.belowStack w 2).setSeg .cs cs with eip := offset } } where
  framed :=
    { holds := Machine.holds_afterReturnAddress (m := { m with host := host }) (hb.of_storedIn hs) hA
      granted := fun k hk => ⟨(hgrants k hk).rights, (hgrants k hk).bounds⟩
      fits := hfits }
  after :=
    ⟨_, offset, _, _,
      hs.trans (Machine.storedIn_afterReturnAddress (m := { m with host := host }) hA), rfl⟩

/-- A far call in real mode that succeeds leaves a return address. -/
theorem transferReal_leaves (selector : Word) (offset : Dword) (hb : Backs A m.host)
    (hA : ∀ a, (m.belowStack w 2).StackByte w 2 a → A a) :
    Ends (transferReal .call w selector offset) m
      (fun _ m' => LeavesFrame A m w m.returnAddress (.realMode selector m.isVirtual8086) m')
      fun _ _ => True := by
  simp only [transferReal, ends_bind]
  refine (reserve_ends (2 * w.bytes) m).mono ?_ fun _ _ h => h
  rintro top m ⟨rfl, rfl, hfits⟩
  rw [← m.sp_addSp, ← Processor.belowStack] at *
  rw [checkRealOffset, ends_ite]
  refine ⟨fun _ => trivial, fun _ => ?_⟩
  refine (storeReturn_ends w m).mono ?_ fun _ _ h => h
  rintro _ _ ⟨rfl, hgrants⟩
  rw [enterReal, ends_update]
  exact leavesFrame_enter hb .refl hA hfits hgrants _ offset

/-- A far call to a code segment of the same level leaves a return address. -/
theorem enterCode_leaves (selector : Word) (d : Descriptor) (offset : Dword) (hb : Backs A m.host)
    (hA : ∀ a, (m.belowStack w 2).StackByte w 2 a → A a) (hc : m.TablesClear A w)
    (hlevel : m.cpl ≤ 3) :
    Ends (enterCode selector d m.cpl offset (some w)) m (fun _ m' => LeavesReturn A m w m')
      fun _ _ => True := by
  unfold enterCode
  simp only [Option.mapM_some, map_eq_pure_bind, bind_assoc, pure_bind, ends_bind]
  refine (reserve_ends (2 * w.bytes) m).mono ?_ fun _ _ h => h
  rintro top m ⟨rfl, rfl, hfits⟩
  rw [← m.sp_addSp, ← Processor.belowStack] at *
  refine ends_guard (fun _ _ _ => trivial) rfl fun _ => ?_
  rw [ends_bind]
  refine (markAccessed_keeps selector hb hc.entries hc.tables).mono ?_ fun _ _ h => h
  rintro _ _ ⟨host, rfl, hmarked, hkept⟩
  rw [ends_bind]
  refine (storeReturn_ends w { m with host := host }).mono ?_ fun _ _ h => h
  rintro _ _ ⟨rfl, hgrants⟩
  rw [enter, ends_update]
  have hstored : StoredIn A m.host host := hmarked.mono (hc.entries selector)
  refine ⟨⟨_, leavesFrame_enter hb hstored hA hfits hgrants _ offset,
    requestedLevel_withLevel hlevel selector⟩, fun selector' d' hd => ?_⟩
  -- The frame lies beside every entry.
  have hframe := Machine.storedIn_afterReturnAddress (m := { m with host := host }) (w := w)
    fun _ ha => ha
  exact (hkept selector' d' hd).imp
    (Machine.descriptor?_of_storedIn (hb.of_storedIn hstored) hframe hA (hc.entries selector')
      (hc.apart selector') rfl rfl)
    (Machine.descriptor?_of_storedIn (hb.of_storedIn hstored) hframe hA (hc.entries selector')
      (hc.apart selector') rfl rfl)

/-- A far call without a gate. -/
theorem transferFar_leaves_direct {dest : FarTarget} {d : Descriptor}
    (hu : m.usesDescriptors = true) (hd : m.farView.descriptor? dest.selector = some d)
    (hcode : d.isCode = true) (hb : Backs A m.host)
    (hA : ∀ a, (m.belowStack w 2).StackByte w 2 a → A a) (hc : m.TablesClear A w)
    (hlevel : m.cpl ≤ 3) :
    Ends (transferFar .call w dest.selector dest.offset) m (fun _ m' => LeavesReturn A m w m')
      fun _ _ => True := by
  have he : AllowsFaults (fun _ _ => True) m := fun _ _ _ => trivial
  rw [transferFar, ends_bind, ends_view, hu]
  unfold transferProtected
  refine ends_guard he rfl fun _ => ?_
  refine ((readDescriptor_observes dest.selector).finds m).bind he fun found hfound => ?_
  obtain rfl : d = found := Option.some.inj (hd.symm.trans hfound)
  rw [hcode]
  unfold enterDirect
  refine ((Observes.view _).finds m).bind he fun cpl hv => ?_
  cases hv
  refine ends_guard he rfl fun _ => ends_guard he rfl fun _ => ?_
  exact enterCode_leaves dest.selector d dest.offset hb hA hc hlevel

/-- A far call through a gate to code of the same level.  The gate chooses the width of the frame. -/
theorem transferFar_leaves_gate {dest : FarTarget} {gate target : Descriptor} {v : Width}
    (hu : m.usesDescriptors = true) (hd : m.farView.descriptor? dest.selector = some gate)
    (hgate : gate.isCallGate = true)
    (htarget : m.farView.descriptor? gate.gateSelector = some target)
    (hsame : target.isConforming = true ∨ target.dpl = m.cpl) (hb : Backs A m.host)
    (hA : ∀ a, (m.belowStack (gateWidth gate) 2).StackByte (gateWidth gate) 2 a → A a)
    (hc : m.TablesClear A (gateWidth gate)) (hlevel : m.cpl ≤ 3) :
    Ends (transferFar .call v dest.selector dest.offset) m
      (fun _ m' => LeavesReturn A m (gateWidth gate) m') fun _ _ => True := by
  have he : AllowsFaults (fun _ _ => True) m := fun _ _ _ => trivial
  have hcode : gate.isCode = false := by
    have hall : ∀ kind : BitVec 5, (kind &&& 0x17 == 0x04) = true →
        (kind &&& 0x18 == 0x18) = false := by decide
    exact hall gate.kind hgate
  rw [transferFar, ends_bind, ends_view, hu]
  unfold transferProtected
  refine ends_guard he rfl fun _ => ?_
  refine ((readDescriptor_observes dest.selector).finds m).bind he fun found hfound => ?_
  obtain rfl : gate = found := Option.some.inj (hd.symm.trans hfound)
  rw [hcode, hgate]
  unfold callGate
  refine (gateTarget_finds dest.selector gate m).bind he fun found hfound => ?_
  obtain ⟨-, -, -, hselector, hd', -, -⟩ := hfound
  obtain ⟨selector, d⟩ := found
  obtain rfl : gate.gateSelector = selector := hselector.symm
  obtain rfl : target = d := Option.some.inj (htarget.symm.trans hd')
  refine ends_guard he rfl fun _ => ?_
  refine ((Observes.view _).finds m).bind he fun cpl hv => ?_
  cases hv
  have hstays : ¬(!target.isConforming && decide (target.dpl < m.cpl)) = true := by
    rcases hsame with h | h <;> simp [h]
  rw [if_neg hstays]
  exact enterCode_leaves gate.gateSelector target gate.callTarget hb hA hc hlevel

end Exec

end Ia32
