import Ia32.Instr.Indirect
import Ia32.Instr.Ports

/-!
# Blind programs

A machine keeps two things that no snapshot holds: the log and the count of
completed instructions.  A program is blind when it does the same on a machine
without them (`Exec.Blind`): it gives the same answer or the same fault, and
leaves the same machine, but for these two.

Blindness is found by instances.  There is one for each way to put programs
together, and one for each program, which looks no further than the programs that
it is made of.  Only programs that read the whole machine need more: what they do
must not depend on the two (`Blind.ofGet`).
-/

namespace Ia32

variable {H : Type}

/-! ## Machines without a record -/

/-- A machine without its log and without its count of completed instructions. -/
def Machine.bare (m : Machine H) : Machine H := { m with log := .silent, retired := 0 }

/-- A log with every level off takes nothing. -/
theorem Log.silent_write (category : Category) (level : Level) (message : Unit → String) :
    silent.write category level message = silent := by
  cases category <;> cases level <;> rfl

namespace Exec

variable {α β : Type}

/-- The end of a program, without the record of the machine that it leaves. -/
def bareEnd : EStateM.Result Fault (Machine H) α → EStateM.Result Fault (Machine H) α
  | .ok a m => .ok a m.bare
  | .error f m => .error f m.bare

/-- A program does the same on a machine without its record. -/
class Blind (x : Exec H α) : Prop where
  run_bare : ∀ m : Machine H, x m.bare = bareEnd (x m)

namespace Blind

/-! ## Rules -/

instance pure (a : α) : Blind (Pure.pure a : Exec H α) := ⟨fun _ => rfl⟩

instance throw (f : Fault) : Blind (MonadExcept.throw f : Exec H α) := ⟨fun _ => rfl⟩

theorem bind {x : Exec H β} {k : β → Exec H α} (hx : Blind x) (hk : ∀ b, Blind (k b)) :
    Blind (x >>= k) := by
  constructor
  intro m
  change EStateM.bind x k m.bare = bareEnd (EStateM.bind x k m)
  unfold EStateM.bind
  rw [hx.run_bare]
  cases x m with
  | ok b m' => exact (hk b).run_bare m'
  | error f m' => rfl

instance bindBlind {x : Exec H β} {k : β → Exec H α} [hx : Blind x] [hk : ∀ b, Blind (k b)] :
    Blind (x >>= k) := .bind hx hk

instance map {x : Exec H β} {f : β → α} [hx : Blind x] : Blind (f <$> x) := by
  constructor
  intro m
  change EStateM.map f x m.bare = bareEnd (EStateM.map f x m)
  unfold EStateM.map
  rw [hx.run_bare]
  cases x m <;> rfl

instance mapM {f : β → Exec H α} [hf : ∀ b, Blind (f b)] (b? : Option β) :
    Blind (b?.mapM f) := by
  cases b? with
  | none => exact .pure none
  | some b => exact .map

/-- What would follow a fault does not matter. -/
instance (priority := high) throwBind (f : Fault) (k : β → Exec H α) :
    Blind (MonadExcept.throw f >>= k : Exec H α) := ⟨fun _ => rfl⟩

theorem tryCatch {x : Exec H α} {k : Fault → Exec H α} (hx : Blind x) (hk : ∀ f, Blind (k f)) :
    Blind (MonadExcept.tryCatch x k : Exec H α) := by
  constructor
  intro m
  change EStateM.tryCatch x k m.bare = bareEnd (EStateM.tryCatch x k m)
  delta EStateM.tryCatch
  dsimp only
  rw [hx.run_bare]
  cases x m with
  | ok a m' => rfl
  | error f m' => exact (hk f).run_bare m'

instance tryCatchBlind {x : Exec H α} {k : Fault → Exec H α} [hx : Blind x]
    [hk : ∀ f, Blind (k f)] : Blind (MonadExcept.tryCatch x k : Exec H α) := .tryCatch hx hk

instance ite {c : Prop} [Decidable c] {x y : Exec H α} [hx : Blind x] [hy : Blind y] :
    Blind (if c then x else y) := by
  split
  · exact hx
  · exact hy

/-- A program may read the machine, if it goes on as it would without the record. -/
theorem ofGet {k : Machine H → Exec H α} (hbare : ∀ m, k m.bare = k m) (hk : ∀ m, Blind (k m)) :
    Blind (get >>= k) := by
  constructor
  intro m
  change k m.bare m.bare = bareEnd (k m m)
  rw [hbare, (hk m).run_bare]

theorem modifyHost (f : H → H) :
    Blind (modify fun m => { m with host := f m.host } : Exec H Unit) := ⟨fun _ => rfl⟩

instance view (f : Processor → α) : Blind (Exec.view f : Exec H α) := ⟨fun _ => rfl⟩

instance update (f : Processor → Processor) : Blind (Exec.update f : Exec H Unit) :=
  ⟨fun _ => rfl⟩

instance updateWith (f : Processor → α × Processor) : Blind (Exec.updateWith f : Exec H α) :=
  ⟨fun _ => rfl⟩

instance note (category : Log.Category) (level : Log.Level) (message : Machine H → String) :
    Blind (Exec.note category level message) := by
  constructor
  intro m
  change EStateM.Result.ok () _ = EStateM.Result.ok () _
  simp only [Machine.bare, Log.silent_write]

end Blind

/-! ## Access to memory -/

instance checkLock_blind (p : Prefixes) : Blind (checkLock p : Exec H Unit) := by
  unfold checkLock
  infer_instance

instance operandWidth_blind (p : Prefixes) : Blind (operandWidth p : Exec H Width) := by
  unfold operandWidth
  infer_instance

instance checkAccess_blind (cache : SegmentCache) (onStack : Bool) (offset : Dword) (len : Nat)
    (access : Access) : Blind (checkAccess cache onStack offset len access : Exec H Dword) := by
  unfold checkAccess
  dsimp only
  infer_instance

instance linearOf_blind (seg : Seg) (offset : Dword) (len : Nat) (access : Access) :
    Blind (linearOf seg offset len access : Exec H Dword) := by
  unfold linearOf
  infer_instance

section Memory

variable [Host H]

instance readLinear_blind (linear : Dword) (n : Nat) :
    Blind (readLinear linear n : Exec H (List Byte)) :=
  .ofGet (fun _ => rfl) fun m => by split <;> infer_instance

instance readLinearValue_blind (linear : Dword) (n : Nat) :
    Blind (readLinearValue linear n : Exec H Nat) := by
  unfold readLinearValue
  infer_instance

instance raiseIf_blind (fault? : Option Fault) : Blind (raiseIf fault? : Exec H Unit) := by
  unfold raiseIf
  split <;> infer_instance

instance storeEach_blind (linear : Dword) (bytes : List Byte) :
    Blind (storeEach linear bytes : Exec H Unit) := by
  induction bytes generalizing linear with
  | nil => exact .pure ()
  | cons b bs ih =>
    have hstore := Blind.modifyHost (H := H) fun h => Host.store h linear b
    have hrest := ih (linear + 1)
    exact .ofGet (fun _ => rfl) fun _ => inferInstance

instance writeLinear_blind (linear : Dword) (bytes : List Byte) :
    Blind (writeLinear linear bytes : Exec H Unit) :=
  .ofGet (fun _ => rfl) fun _ => inferInstance

instance loadBytes_blind (seg : Seg) (offset : Dword) (n : Nat) :
    Blind (loadBytes seg offset n : Exec H (List Byte)) := by
  unfold loadBytes
  infer_instance

instance load_blind (w : Width) (seg : Seg) (offset : Dword) :
    Blind (load w seg offset : Exec H Dword) := by
  unfold load
  infer_instance

instance storeBytes_blind (seg : Seg) (offset : Dword) (bytes : List Byte) :
    Blind (storeBytes seg offset bytes : Exec H Unit) := by
  unfold storeBytes
  infer_instance

instance store_blind (w : Width) (seg : Seg) (offset value : Dword) :
    Blind (store w seg offset value : Exec H Unit) := by
  unfold store
  infer_instance

instance storeThrough_blind (w : Width) (cache : SegmentCache) (offset value : Dword) :
    Blind (storeThrough w cache offset value : Exec H Unit) := by
  unfold storeThrough
  infer_instance

/-! ## The code stream -/

instance fetch8_blind : Blind (fetch8 : Exec H Byte) := by
  have hread : ∀ linear : Dword, Blind (do
      match Host.read (← get).host linear with
      | .ok b =>
        update fun s => { s with eip := s.eip + 1 }
        return b
      | .error fault => throw fault : Exec H Byte) := fun linear =>
    .ofGet (fun _ => rfl) fun m => by split <;> infer_instance
  unfold fetch8
  dsimp only
  infer_instance

instance fetchBytes_blind (n : Nat) : Blind (fetchBytes n : Exec H (List Byte)) := by
  induction n with
  | zero => exact .pure []
  | succ n ih =>
    unfold fetchBytes
    infer_instance

instance fetch_blind (w : Width) : Blind (fetch w : Exec H Dword) := by
  unfold fetch
  infer_instance

instance fetchSigned8_blind : Blind (fetchSigned8 : Exec H Dword) := by
  unfold fetchSigned8
  infer_instance

instance fetchImmediate_blind (w : Width) (short : Bool) :
    Blind (fetchImmediate w short : Exec H Dword) := by
  unfold fetchImmediate
  infer_instance

/-! ## The stack -/

instance push_blind (w : Width) (value : Dword) : Blind (push w value : Exec H Unit) := by
  unfold push
  infer_instance

instance pop_blind (w : Width) : Blind (pop w : Exec H Dword) := by
  unfold pop
  infer_instance

instance keepingStack_blind {α : Type} (action : Exec H α) [Blind action] :
    Blind (keepingStack action) := by
  unfold keepingStack
  infer_instance

end Memory

end Exec

end Ia32
