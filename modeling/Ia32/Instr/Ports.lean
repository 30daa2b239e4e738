import Ia32.Exec.Tables
import Ia32.Instr.Strings

/-!
# Ports

A program may use a port when its privilege level is at most the one in the
flags.  Otherwise, and always in virtual-8086 mode, the port map of the task
state segment decides.  The string forms move values between ports and memory.
-/

namespace Ia32.Exec

variable {H : Type} [Host H]

/-! ## Permission -/

/-- Whether the port map decides about ports. -/
def portMapDecides (s : Processor) : Bool :=
  s.isProtected && (s.iopl < s.cpl.toNat || s.isVirtual8086)

/-- The message about a denied port. -/
def portMessage (s : Processor) (port : Word) : String :=
  let port := Hex.upper 4 port.toNat
  s!"port {port} denied at CPL {s.cpl.toNat} IOPL {s.iopl}"

/-- Checks that the program may use all ports of a value. -/
def checkPorts (port : Word) (w : Width) : Exec H Unit := do
  if ← view portMapDecides then
    if !(← ioPermitted port w.bytes) then
      note .io .debug fun m => portMessage m.toProcessor port
      throw (.generalProtection 0)

/-! ## Access -/

/-- A message about a value that goes through a port. -/
def transferMessage (direction : String) (w : Width) (port : Word) (arrow : String)
    (value : Dword) : String :=
  let port := Hex.upper 4 port.toNat
  let value := Hex.upper (2 * w.bytes) value.toNat
  s!"{direction} {port} {arrow} {value}"

/-- Reads a value from a port. -/
def portRead (w : Width) (port : Word) : Exec H Dword := do
  let value ← modifyGet fun m =>
    match w with
    | .byte =>
      let (value, h) := Host.readPort8 m.host port
      (value.setWidth 32, { m with host := h })
    | .word =>
      let (value, h) := Host.readPort16 m.host port
      (value.setWidth 32, { m with host := h })
    | .dword =>
      let (value, h) := Host.readPort32 m.host port
      (value, { m with host := h })
  note .io .trace fun _ => transferMessage "IN " w port "->" value
  return value

/-- Writes a value to a port. -/
def portWrite (w : Width) (port : Word) (value : Dword) : Exec H Unit := do
  note .io .trace fun _ => transferMessage "OUT" w port "<-" value
  modify fun m =>
    match w with
    | .byte => { m with host := Host.writePort8 m.host port (value.setWidth 8) }
    | .word => { m with host := Host.writePort16 m.host port (value.setWidth 16) }
    | .dword => { m with host := Host.writePort32 m.host port value }

/-! ## Instructions -/

/-- Where the number of a port comes from. -/
inductive PortSource where
  /-- It follows in the code, as a byte. -/
  | immediate
  /-- It is in the data register. -/
  | register
deriving DecidableEq, Repr

/-- The number of a port.  A lock is refused when it is known. -/
def portNumber (p : Prefixes) (source : PortSource) : Exec H Word := do
  match source with
  | .immediate =>
    let port := (← fetch8).setWidth 16
    checkLock p
    return port
  | .register =>
    checkLock p
    view fun s => (s.reg .word Reg.edx).setWidth 16

/-- Reads the accumulator from a port. -/
def input (p : Prefixes) (w : Width) (source : PortSource) : Exec H Unit := do
  let port ← portNumber p source
  checkPorts port w
  let value ← portRead w port
  update (·.setReg w Reg.eax value)

/-- Writes the accumulator to a port. -/
def output (p : Prefixes) (w : Width) (source : PortSource) : Exec H Unit := do
  let port ← portNumber p source
  checkPorts port w
  portWrite w port (← view (·.reg w Reg.eax))

/-- Reads from a port to the place of the destination index.  The bounds and rights of that
place are checked before the port is read. -/
def inputString (p : Prefixes) (w : Width) : Exec H Unit := do
  let port ← portNumber p .register
  checkPorts port w
  if ← isExhausted p then return
  let offset ← indexRegister p Reg.edi
  let _ ← checkAccess (← view (·.segs.es)) false offset w.bytes .write
  let value ← portRead w port
  store w .es offset value
  advance p Reg.edi w
  repeatInstruction p

/-- Writes from the place of the source index to a port. -/
def outputString (p : Prefixes) (w : Width) : Exec H Unit := do
  let port ← portNumber p .register
  checkPorts port w
  if ← isExhausted p then return
  let value ← load w (p.dataSegment .ds) (← indexRegister p Reg.esi)
  portWrite w port value
  advance p Reg.esi w
  repeatInstruction p

end Ia32.Exec
