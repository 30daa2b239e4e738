import Ia32.Host
import Ia32.Width

/-!
# Hosts that record the use of ports

A host around another one.  It passes everything on, and keeps a record of the
accesses to ports.  An access of two or four bytes is one access, whatever the
host inside makes of it.
-/

namespace Ia32

/-- An access to a port. -/
inductive PortAccess where
  /-- It reads. -/
  | read (w : Width) (port : Word)
  /-- It writes. -/
  | write (w : Width) (port : Word) (value : Dword)
deriving DecidableEq, Repr

/-- A value that goes through a port, and through the ports after it when it has several bytes. -/
structure PortRange where
  /-- The first port. -/
  port : Word
  /-- The width of the value. -/
  width : Width
deriving DecidableEq, Repr

/-- The ports that an access goes through. -/
def PortAccess.range : PortAccess → PortRange
  | .read w port => ⟨port, w⟩
  | .write w port _ => ⟨port, w⟩

/-- A host with a record of accesses to its ports. -/
structure Traced (H : Type) where
  /-- The host. -/
  inner : H
  /-- The accesses to ports, oldest first. -/
  accesses : List PortAccess

namespace Host

variable {H : Type} [Host H]

/-- Reads a value from a port. -/
def readPort (h : H) (w : Width) (port : Word) : Dword × H :=
  match w with
  | .byte =>
    let (value, h) := Host.readPort8 h port
    (value.setWidth 32, h)
  | .word =>
    let (value, h) := Host.readPort16 h port
    (value.setWidth 32, h)
  | .dword => Host.readPort32 h port

/-- Writes a value to a port. -/
def writePort (h : H) (w : Width) (port : Word) (value : Dword) : H :=
  match w with
  | .byte => Host.writePort8 h port (value.setWidth 8)
  | .word => Host.writePort16 h port (value.setWidth 16)
  | .dword => Host.writePort32 h port value

end Host

namespace Traced

variable {H : Type}

/-- A host with one more access in the record. -/
def recording (t : Traced H) (access : PortAccess) (inner : H) : Traced H :=
  ⟨inner, t.accesses ++ [access]⟩

/-- A host that records is a host. -/
instance [Host H] : Host (Traced H) where
  read t := Host.read t.inner
  storeFault t := Host.storeFault t.inner
  store t address value := { t with inner := Host.store t.inner address value }
  checkRange t := Host.checkRange t.inner
  readPort8 t port :=
    let (value, h) := Host.readPort8 t.inner port
    (value, t.recording (.read .byte port) h)
  readPort16 t port :=
    let (value, h) := Host.readPort16 t.inner port
    (value, t.recording (.read .word port) h)
  readPort32 t port :=
    let (value, h) := Host.readPort32 t.inner port
    (value, t.recording (.read .dword port) h)
  writePort8 t port value :=
    t.recording (.write .byte port (value.setWidth 32)) (Host.writePort8 t.inner port value)
  writePort16 t port value :=
    t.recording (.write .word port (value.setWidth 32)) (Host.writePort16 t.inner port value)
  writePort32 t port value :=
    t.recording (.write .dword port value) (Host.writePort32 t.inner port value)

variable [Host H]

@[simp] theorem accesses_store (t : Traced H) (address : Dword) (value : Byte) :
    (Host.store t address value).accesses = t.accesses := rfl

@[simp] theorem accesses_readPort (t : Traced H) (w : Width) (port : Word) :
    (Host.readPort t w port).2.accesses = t.accesses ++ [.read w port] := by
  cases w <;> rfl

/-- A write is recorded with the part of the value that goes through the port. -/
theorem accesses_writePort (t : Traced H) (w : Width) (port : Word) (value : Dword) :
    ∃ written, (Host.writePort t w port value).accesses =
      t.accesses ++ [.write w port written] := by
  cases w <;> exact ⟨_, rfl⟩

end Traced

end Ia32
