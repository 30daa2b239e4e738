import Ia32.Host.Traced
import Ia32.Instr.Ports
import Ia32.Proofs.TransferEffects

/-!
# Permission to use ports

The port map of the task state segment holds one bit for each port.  A value of
several bytes goes through as many ports, and the bits of all of them must be
clear and lie inside the segment.  The map is not taken to start over after the
last port: the ports above it have bits as well.
-/

namespace Ia32

open Host Exec

variable {H : Type} [Host H]

/-! ## The map -/

/-- The bit of port `k` in the map at `mapBase` lies inside the segment and is clear. -/
def MapClear (h : H) (tr : SegmentCache) (mapBase k : Nat) : Prop :=
  mapBase + k / 8 ≤ tr.lastByte.toNat ∧
    ∃ byte, Host.read h (tr.base + BitVec.ofNat 32 (mapBase + k / 8)) = .ok byte ∧
      byte.getLsbD (k % 8) = false

/-- The task state segment allows the ports of a value: it is a 32-bit one and has its fixed part,
where the place of the map stands, and the map is clear at each of the ports. -/
structure MapAllows (h : H) (tr : SegmentCache) (range : PortRange) : Prop where
  wide : tr.tssIs32 = true
  fixedPart : 103 ≤ tr.lastByte.toNat
  clear : ∃ low high,
    Host.read h (tr.base + 102) = .ok low ∧ Host.read h (tr.base + 103) = .ok high ∧
    ∀ i < range.width.bytes, MapClear h tr (littleEndian [low, high]) (range.port.toNat + i)

namespace Exec

theorem hostBytes_succ_eq_ok_iff {h : H} {linear : Dword} {n : Nat} {bytes : List Byte} :
    hostBytes h linear (n + 1) = .ok bytes ↔
      ∃ b rest, Host.read h linear = .ok b ∧ hostBytes h (linear + 1) n = .ok rest ∧
        b :: rest = bytes := by
  rw [hostBytes]
  cases Host.read h linear with
  | error f => simp [bind, Except.bind]
  | ok b => cases hostBytes h (linear + 1) n <;> simp [bind, Except.bind, pure, Except.pure]

theorem hostBytes_zero_eq_ok_iff {h : H} {linear : Dword} {bytes : List Byte} :
    hostBytes h linear 0 = .ok bytes ↔ [] = bytes := by
  rw [hostBytes, Except.ok.injEq]

theorem value?_readLinearValue_eq_some_iff {linear : Dword} {n v : Nat} {m : Machine H} :
    value? (readLinearValue linear n) m = some v ↔
      ∃ bytes, hostBytes m.host linear n = .ok bytes ∧ littleEndian bytes = v := by
  rw [readLinearValue, value?_map, value?_readLinear]
  cases hostBytes m.host linear n <;> simp [Except.toOption]

theorem hostBytes_one_eq_ok_iff {h : H} {linear : Dword} {bytes : List Byte} :
    hostBytes h linear 1 = .ok bytes ↔ ∃ b, Host.read h linear = .ok b ∧ [b] = bytes := by
  simp [hostBytes_succ_eq_ok_iff, hostBytes_zero_eq_ok_iff]

/-- A byte that is read as a number. -/
theorem value?_readByte_eq_some_iff {linear : Dword} {v : Nat} {m : Machine H} :
    value? (readLinearValue linear 1) m = some v ↔
      ∃ byte, Host.read m.host linear = .ok byte ∧ byte.toNat = v := by
  simp only [value?_readLinearValue_eq_some_iff, hostBytes_one_eq_ok_iff]
  constructor
  · rintro ⟨_, ⟨byte, hr, rfl⟩, hv⟩
    exact ⟨byte, hr, hv⟩
  · rintro ⟨byte, hr, hv⟩
    exact ⟨[byte], ⟨byte, hr, rfl⟩, hv⟩

/-- Two bytes that are read as a number. -/
theorem value?_readWord_eq_some_iff {linear : Dword} {v : Nat} {m : Machine H} :
    value? (readLinearValue linear 2) m = some v ↔
      ∃ low high, Host.read m.host linear = .ok low ∧ Host.read m.host (linear + 1) = .ok high ∧
        littleEndian [low, high] = v := by
  simp only [value?_readLinearValue_eq_some_iff, hostBytes_succ_eq_ok_iff (n := 1),
    hostBytes_one_eq_ok_iff]
  constructor
  · rintro ⟨_, ⟨low, _, hl, ⟨high, hh, rfl⟩, rfl⟩, hv⟩
    exact ⟨low, high, hl, hh, hv⟩
  · rintro ⟨low, high, hl, hh, hv⟩
    exact ⟨[low, high], ⟨low, [high], hl, ⟨high, hh, rfl⟩, rfl⟩, hv⟩

/-- A bit of the map is clear when the byte that holds it can be read and says so. -/
theorem mapClear_iff (m : Machine H) (tr : SegmentCache) (mapBase k : Nat) :
    MapClear m.host tr mapBase k ↔ ¬tr.lastByte.toNat < mapBase + k / 8 ∧
      ∃ v, value? (readLinearValue (tr.base + BitVec.ofNat 32 (mapBase + k / 8)) 1) m = some v ∧
        v.testBit (k % 8) = false := by
  simp only [MapClear, value?_readByte_eq_some_iff, Nat.not_lt]
  refine and_congr_right fun _ => ⟨?_, ?_⟩
  · rintro ⟨byte, hr, hb⟩
    exact ⟨_, ⟨byte, hr, rfl⟩, hb⟩
  · rintro ⟨_, ⟨byte, hr, rfl⟩, hb⟩
    exact ⟨byte, hr, hb⟩

/-- The map allows as many ports as have clear bits in a row. -/
theorem value?_portsAllowed_iff (tr : SegmentCache) (mapBase port count : Nat) (m : Machine H) :
    value? (portsAllowed tr mapBase port count) m = some true ↔
      ∀ i < count, MapClear m.host tr mapBase (port + i) := by
  have hpure : ∀ b : Bool, value? (pure b : Exec H Bool) m = some b := fun _ => rfl
  induction count generalizing port with
  | zero => simp [portsAllowed, hpure]
  | succ count ih =>
    have hsplit : (∀ i < count + 1, MapClear m.host tr mapBase (port + i)) ↔
        MapClear m.host tr mapBase port ∧
          ∀ i < count, MapClear m.host tr mapBase (port + 1 + i) := by
      rw [Nat.forall_lt_succ_left]
      simp only [Nat.add_zero, Nat.add_right_comm port 1, Nat.add_assoc]
    rw [hsplit, mapClear_iff, portsAllowed]
    split
    next hend => simp [hend, hpure]
    next hend =>
      rw [(readLinearValue_observes _ 1).value_bind]
      cases hv : value? (readLinearValue (tr.base + BitVec.ofNat 32 (mapBase + port / 8)) 1) m with
      | none => simp
      | some v => cases hb : v.testBit (port % 8) <;> simp [hb, hend, hpure, ih]

theorem value?_ioPermitted_iff (range : PortRange) (m : Machine H) :
    value? (ioPermitted range.port range.width.bytes) m = some true ↔
      MapAllows m.host m.tr range := by
  have hpure : value? (pure false : Exec H Bool) m = some false := rfl
  rw [ioPermitted, value?_view_bind]
  split
  next hpart =>
    simp only [hpure, Option.some.injEq, Bool.false_eq_true, false_iff]
    intro h
    simp [h.wide, fixedPartLast, Nat.not_lt.mpr h.fixedPart] at hpart
  next hpart =>
    rw [(readLinearValue_observes _ 2).value_bind, Option.bind_eq_some_iff]
    simp only [value?_readWord_eq_some_iff, value?_portsAllowed_iff]
    have hpart : m.tr.tssIs32 = true ∧ fixedPartLast ≤ m.tr.lastByte.toNat := by
      simpa only [Bool.or_eq_true, not_or, Bool.not_eq_true', Bool.not_eq_false,
        decide_eq_true_eq, Nat.not_lt] using hpart
    constructor
    · rintro ⟨_, ⟨low, high, hl, hh, rfl⟩, hclear⟩
      exact ⟨hpart.1, hpart.2, low, high, hl, by rwa [BitVec.add_assoc] at hh, hclear⟩
    · rintro ⟨-, -, low, high, hl, hh, hclear⟩
      exact ⟨_, ⟨low, high, hl, by rwa [BitVec.add_assoc], rfl⟩, hclear⟩

end Exec

/-! ## The check -/

/-- A program may use the ports of a value: the map does not decide about them, or it allows
them. -/
def MayUse (m : Machine H) (range : PortRange) : Prop :=
  portMapDecides m.toProcessor = true → MapAllows m.host m.tr range

namespace Exec

/-- The check of a port succeeds when the program may use it. -/
theorem checkPorts_ends (port : Word) (w : Width) (m : Machine H) :
    Ends (checkPorts port w) m (fun _ m' => m' = m ∧ MayUse m ⟨port, w⟩)
      (fun _ m' => ∃ log, m' = { m with log := log }) := by
  rw [checkPorts, ends_bind, ends_view, ends_ite]
  refine ⟨fun _ => ?_, fun hfree => ⟨rfl, fun h => absurd h hfree⟩⟩
  rw [ends_bind]
  refine Ends.mono ((ioPermitted_observes port w.bytes).finds m) ?_ fun _ _ h => h.1
  rintro permitted _ ⟨rfl, hv⟩
  cases permitted with
  | false => exact ⟨_, rfl⟩
  | true => exact ⟨rfl, fun _ => (value?_ioPermitted_iff ⟨port, w⟩ _).mp hv⟩

end Exec

end Ia32
