import Ia32.Instr.Fpu.Compute

/-!
# Loads and stores of numbers

A load pushes a number, a store writes the top register to memory.  A number
that does not fit the destination raises an exception, and if that is masked an
indefinite value is stored.  Nothing is stored or popped when the instruction is
stopped.
-/

namespace Ia32.FloatExec

variable {H : Type}

/-! ## Loads -/

/-- Pushes a number.  A NaN that signals becomes quiet on the way, but for one that has the
format of the registers. -/
def load (p : Prefixes) (format : NumberFormat) (loaded : Loaded) : FloatExec H Unit := do
  requireRoom p
  if format ≠ .real .extended && loaded.value.isSignaling then
    raise p Exception.invalid
    update (·.pushNumber loaded.value.quiet)
  else
    if loaded.denormal then raise p Exception.denormal
    update (·.pushNumber loaded.value)

/-- Pushes a copy of a register. -/
def loadRegister (p : Prefixes) (i : Nat) : FloatExec H Unit := do
  requireFull p i
  let x ← view (·.value i)
  requireRoom p
  update (·.pushNumber x)

/-- Pushes a constant. -/
def loadConstant (p : Prefixes) (c : Constant) : FloatExec H Unit := do
  requireRoom p
  update (·.pushNumber c.value)

/-! ## Registers -/

/-- Copies the top register to another one. -/
def storeRegister (p : Prefixes) (i : Nat) (pops : Bool) : FloatExec H Unit := do
  requireFull p 0
  let x ← view (·.value 0)
  update (·.store i x)
  popIf pops

/-- Exchanges the top register with another one. -/
def exchange (p : Prefixes) (i : Nat) : FloatExec H Unit := do
  requireFull p 0
  requireFull p i
  let a ← view (·.value 0)
  let b ← view (·.value i)
  update fun f => (f.store 0 b).store i a

/-! ## Floating-point numbers -/

/-- Bytes to be stored and the exceptions that storing them raises. -/
structure Stored where
  /-- The bytes. -/
  bytes : List Byte
  /-- The exceptions, as bits of the status word. -/
  exceptions : Word
deriving DecidableEq, Repr

/-- A number in a format of memory. -/
def Stored.ofReal (format : RealFormat) (mode : Rounding) (x : Extended) : Stored :=
  let encoded (f : Format) : Stored :=
    let e := x.encode f mode
    ⟨bytesOf format.bytes e.bits, e.exceptions⟩
  match format with
  | .single => encoded .single
  | .double => encoded .double
  | .extended => ⟨x.toBytes, 0⟩

/-- Raises the exceptions of a store.  The configuration may hide that a number out of range is
also inexact. -/
def raiseStore (p : Prefixes) (exceptions : Word) : FloatExec H Unit := do
  raiseIfAmong p exceptions Exception.invalid
  let range := exceptions &&& (Exception.overflow ||| Exception.underflow)
  raiseAfter p range
  let m : Machine H ← (get : Exec H (Machine H))
  if range ≠ 0 && m.config.storeRangeHidesInexact then
    update (·.setCondition Status.c1 false)
  else raiseAfter p (exceptions &&& Exception.precision)

variable [Host H]

/-- Stores bytes in memory. -/
def storeBytes (seg : Seg) (offset : Dword) (bytes : List Byte) : FloatExec H Unit :=
  (Exec.storeBytes seg offset bytes : Exec H Unit)

/-- Stores the top register as a floating-point number. -/
def storeReal (p : Prefixes) (seg : Seg) (offset : Dword) (format : RealFormat) (pops : Bool) :
    FloatExec H Unit := do
  requireFull p 0
  let stored := Stored.ofReal format (← view (·.rounding)) (← view (·.value 0))
  raiseStore p stored.exceptions
  storeBytes seg offset stored.bytes
  popIf pops

/-! ## Integers -/

/-- The integer to be stored for a number. -/
def roundToFormat (p : Prefixes) (format : IntFormat) (x : Extended) : FloatExec H Int := do
  match x.toInt? (← view (·.rounding)) with
  | (some n, inexact) =>
    if format.fits n then
      if inexact then raiseAfter p Exception.precision
      return n
    else
      raise p Exception.invalid
      return format.least
  | (none, _) =>
    raise p Exception.invalid
    return format.least

/-- Stores the top register as an integer. -/
def storeInt (p : Prefixes) (seg : Seg) (offset : Dword) (format : IntFormat) (pops : Bool) :
    FloatExec H Unit := do
  requireFull p 0
  let n ← roundToFormat p format (← view (·.value 0))
  storeBytes seg offset (bytesOf format.bytes (BitVec.ofInt (8 * format.bytes) n).toNat)
  popIf pops

/-! ## Packed decimals -/

/-- The number of bytes with digits in a packed decimal. -/
def decimalBytes : Nat := 9

/-- Packed digits, two in a byte, least significant first. -/
def packDigits : (bytes n : Nat) → List Byte
  | 0, _ => []
  | bytes + 1, n => BitVec.ofNat 8 (n / 10 % 10 * 16 + n % 10) :: packDigits bytes (n / 100)

/-- A packed decimal: eighteen digits and a sign. -/
def packedDecimal (sign : Bool) (magnitude : Nat) : List Byte :=
  packDigits decimalBytes magnitude ++ [if sign then 0x80 else 0]

/-- The packed decimal that stands for numbers that are none. -/
def indefiniteDecimal : List Byte := List.replicate 7 0 ++ [0xC0, 0xFF, 0xFF]

/-- The packed decimal to be stored for a number. -/
def roundToDecimal (p : Prefixes) (x : Extended) : FloatExec H (List Byte) := do
  if x.isNan || x.isInfinite then
    raise p Exception.invalid
    return indefiniteDecimal
  let (n?, inexact) := x.toInt? (← view (·.rounding))
  if inexact then raiseAfter p Exception.precision
  match n? with
  | some n =>
    if n.natAbs < Nat.pow 10 (2 * decimalBytes) then return packedDecimal x.sign n.natAbs
    else
      raise p Exception.invalid
      return indefiniteDecimal
  | none =>
    raise p Exception.invalid
    return indefiniteDecimal

/-- Stores the top register as a packed decimal and pops it. -/
def storeDecimal (p : Prefixes) (seg : Seg) (offset : Dword) : FloatExec H Unit := do
  requireFull p 0
  let bytes ← roundToDecimal p (← view (·.value 0))
  storeBytes seg offset bytes
  update Fpu.pop

end Ia32.FloatExec
