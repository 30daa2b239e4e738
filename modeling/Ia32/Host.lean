import Ia32.Fault

/-!
# Hosts

A host supplies memory and ports.  Addresses of memory are linear; the processor
applies segmentation before it asks.  A host may refuse an access with a fault.
Every store asks `checkRange` for all its bytes before the first byte is
written, so that a host can refuse the store as a whole.

The hosts of this library are those whose refusals have no effect.  Whether a
byte can be stored depends on the state of the host and on the address, not on
the byte (`storeFault`), and a read or a store that is refused leaves the host as
it was.
-/

namespace Ia32

/-- The memory and the ports around a processor. -/
class Host (H : Type) where
  /-- The byte at an address. -/
  read : H → Dword → Except Fault Byte
  /-- The fault that a store of one byte raises. -/
  storeFault : H → Dword → Option Fault
  /-- Stores a byte. -/
  store : H → Dword → Byte → H
  /-- The fault that a store of several bytes raises. -/
  checkRange : H → Dword → Nat → Option Fault := fun _ _ _ => none
  /-- Reads a byte from a port. -/
  readPort8 : H → Word → Byte × H := fun h _ => (0xFF, h)
  /-- Reads two bytes from a port, by default from two ports. -/
  readPort16 : H → Word → Word × H := fun h port =>
    let (low, h) := readPort8 h port
    let (high, h) := readPort8 h (port + 1)
    (high ++ low, h)
  /-- Reads four bytes from a port, by default as two words. -/
  readPort32 : H → Word → Dword × H := fun h port =>
    let (low, h) := readPort16 h port
    let (high, h) := readPort16 h (port + 2)
    (high ++ low, h)
  /-- Writes a byte to a port. -/
  writePort8 : H → Word → Byte → H := fun h _ _ => h
  /-- Writes two bytes to a port, by default to two ports. -/
  writePort16 : H → Word → Word → H := fun h port value =>
    writePort8 (writePort8 h port (value.setWidth 8)) (port + 1) (value.extractLsb' 8 8)
  /-- Writes four bytes to a port, by default as two words. -/
  writePort32 : H → Word → Dword → H := fun h port value =>
    writePort16 (writePort16 h port (value.setWidth 16)) (port + 2) (value.extractLsb' 16 16)

end Ia32
