import Ia32.Flags

/-!
# Bit scans and single bits

The scans find the lowest and the highest one of a value, byte by byte.  The bit
operations test one bit and may change it.  A bit offset in a register reaches
beyond its operand in memory: the memory is one string of bits, and
`unitOffset` finds the unit of the string that holds the bit.
-/

namespace Ia32

/-! ## Scans -/

/-- The index of the lowest one of a byte, or eight for zero. -/
def Byte.lowestOne (b : Byte) : Nat := if b = 0 then 8 else b.ctz.toNat

/-- The index of the highest one of a byte, or eight for zero. -/
def Byte.highestOne (b : Byte) : Nat := if b = 0 then 8 else 7 - b.clz.toNat

/-- Looks some bytes of a value up in a table, one after the other.  The first entry that is not
eight gives the answer, which is zero if there is none. -/
def scanBytes (table : Byte → Nat) (value : Dword) : List Nat → Nat
  | [] => 0
  | k :: ks =>
    let index := table ((value >>> (8 * k)).setWidth 8)
    if index ≠ 8 then 8 * k + index else scanBytes table value ks

/-- The end at which a bit scan starts. -/
inductive ScanOrder where
  /-- From the lowest bit. -/
  | forward
  /-- From the highest bit. -/
  | reverse
deriving DecidableEq, Repr

/-- The index of the first one that a scan meets in a value that is not zero. -/
def scan (w : Width) (order : ScanOrder) (value : Dword) : Nat :=
  match order with
  | .forward => scanBytes Byte.lowestOne value (List.range w.bytes)
  | .reverse => scanBytes Byte.highestOne value (List.range w.bytes).reverse

/-- The index of the first one that a scan of the value meets. -/
def scan? (w : Width) (order : ScanOrder) (value : Dword) : Option Nat :=
  if value = 0 then none else some (scan w order value)

/-! ## Single bits -/

/-- What becomes of a tested bit. -/
inductive BitOp where
  /-- It stays. -/
  | test
  /-- It is set. -/
  | set
  /-- It is cleared. -/
  | reset
  /-- It is inverted. -/
  | complement
deriving DecidableEq, Repr

namespace BitOp

/-- The operation with a two-bit number. -/
def ofBits (n : BitVec 2) : BitOp :=
  match n.toNat with
  | 0 => .test
  | 1 => .set
  | 2 => .reset
  | _ => .complement

/-- The value after the operation on the bits of `mask`. -/
def apply (op : BitOp) (value mask : Dword) : Dword :=
  match op with
  | .test => value
  | .set => value ||| mask
  | .reset => value &&& ~~~mask
  | .complement => value ^^^ mask

end BitOp

/-- The offset from the start of a bit string of the unit that holds bit `k`, where `k` is a
signed number of the width. -/
def unitOffset (w : Width) (k : Dword) : Dword :=
  let places :=
    match w with
    | .byte => 3
    | .word => 4
    | .dword => 5
  (w.signExtend k).sshiftRight places <<< (places - 3)

/-- The index of bit `k` of a bit string inside its unit. -/
def unitIndex (w : Width) (k : Dword) : Nat := k.toNat % w.bits

/-- The bytes of a double word in reverse order. -/
def reverseBytes (value : Dword) : Dword :=
  BitVec.ofNat 32 (littleEndian (bytesOf 4 value.toNat).reverse)

end Ia32
