import Ia32.Host

/-!
# Array memory

A host with a block of memory from address zero on.  Beyond the block reads give
ones and stores have no effect.  One address can be made to fault.  Every port
reads one fixed value, and writes to ports are recorded.
-/

namespace Ia32

/-- A write to a port. -/
structure PortWrite where
  /-- The port. -/
  port : Word
  /-- What was written. -/
  value : Dword
  /-- The number of bytes. -/
  size : Nat
deriving DecidableEq, Repr

/-- A block of memory and a record of port writes. -/
structure Ram where
  /-- The bytes. -/
  bytes : ByteArray
  /-- The address that faults. -/
  faultAt : Option Dword
  /-- What ports read as. -/
  portInput : Dword
  /-- The writes to ports, oldest first. -/
  portWrites : Array PortWrite

namespace Ram

/-- Some zeros: twice the half of them, and one more for an odd number. -/
def zeroBytes (n : Nat) : ByteArray :=
  if n = 0 then .empty else
  let half := zeroBytes (n / 2)
  if n % 2 = 0 then half ++ half else (half ++ half).push 0
termination_by n

/-- A block of zeros. -/
def zeros (size : Nat) : Ram where
  bytes := zeroBytes size
  faultAt := none
  portInput := 0xFFFFFFFF
  portWrites := #[]

/-- The byte at an address. -/
def peek (m : Ram) (address : Dword) : Byte :=
  if h : address.toNat < m.bytes.size then m.bytes[address.toNat].toBitVec else 0xFF

/-- Stores a byte. -/
def poke (m : Ram) (address : Dword) (value : Byte) : Ram :=
  if h : address.toNat < m.bytes.size then
    { m with bytes := m.bytes.set address.toNat ⟨value⟩ }
  else m

/-- Bytes from an address on, as far as the addresses go around. -/
def peekMany (m : Ram) (address : Dword) : Nat → List Byte
  | 0 => []
  | n + 1 => m.peek address :: m.peekMany (address + 1) n

/-- Stores bytes from an address on. -/
def pokeMany (m : Ram) (address : Dword) : List Byte → Ram
  | [] => m
  | b :: bs => (m.poke address b).pokeMany (address + 1) bs

/-- Stores bytes from an address on, if the block has room for all of them. -/
def load (m : Ram) (address : Dword) (bytes : List Byte) : Ram :=
  if address.toNat + bytes.length ≤ m.bytes.size then m.pokeMany address bytes else m

/-- The page fault of a read. -/
def readFault (address : Dword) : Fault := .pageFault address 0

/-- The page fault of a store. -/
def writeFault (address : Dword) : Fault := .pageFault address 2

/-- Records a write to a port. -/
def recordWrite (m : Ram) (port : Word) (value : Dword) (size : Nat) : Ram :=
  { m with portWrites := m.portWrites.push ⟨port, value, size⟩ }

end Ram

/-- A block of memory as a host.  A store that would meet the faulting address is refused as a
whole. -/
instance : Host Ram where
  read m address :=
    if m.faultAt = some address then .error (Ram.readFault address) else .ok (m.peek address)
  storeFault m address := if m.faultAt = some address then some (Ram.writeFault address) else none
  store := Ram.poke
  checkRange m address len :=
    match m.faultAt with
    | some bad => if (bad - address).toNat < len then some (Ram.writeFault bad) else none
    | none => none
  readPort8 m _ := (m.portInput.setWidth 8, m)
  readPort16 m _ := (m.portInput.setWidth 16, m)
  readPort32 m _ := (m.portInput, m)
  writePort8 m port value := m.recordWrite port (value.setWidth 32) 1
  writePort16 m port value := m.recordWrite port (value.setWidth 32) 2
  writePort32 m port value := m.recordWrite port value 4

end Ia32
