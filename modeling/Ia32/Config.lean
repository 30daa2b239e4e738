import Ia32.Json.Parser
import Ia32.Json.Record

/-!
# Configuration

The choices that the documentation of the processor leaves open.  A
configuration is read from JSON; what is not given keeps its default.
-/

namespace Ia32

/-- What a bit scan with a repeat marker does. -/
inductive RepeatedScan where
  /-- It warns and scans once. -/
  | warnAndIgnore
  /-- It is no instruction. -/
  | invalidOpcode
deriving DecidableEq, Repr

/-- The name of a choice. -/
def RepeatedScan.name : RepeatedScan → String
  | .warnAndIgnore => "WarnAndIgnore"
  | .invalidOpcode => "InvalidOpcode"

/-- The choices for a processor. -/
structure Config where
  /-- What a bit scan with a repeat marker does. -/
  repeatedScan : RepeatedScan := .warnAndIgnore
  /-- Whether storing a number that leaves the range of the destination clears condition one
  and does not report that the result is inexact. -/
  storeRangeHidesInexact : Bool := true
  /-- Whether a division by zero reports that before anything else, for any dividend. -/
  zeroDivisorAlwaysRaises : Bool := false
  /-- The size of the memory in bytes. -/
  memorySize : Nat := 16 * 1024 * 1024
deriving DecidableEq, Repr

namespace Config

/-- The names of the members, in their order. -/
def memberNames : List String :=
  ["rep_bit_scan", "fst_inexact_after_overflow_clears_c1", "fdiv_any_zero_divisor_raises_ze",
    "memory_size"]

/-- The choice with a given name. -/
def scanOfName? : String → Option RepeatedScan
  | "WarnAndIgnore" => some .warnAndIgnore
  | "InvalidOpcode" => some .invalidOpcode
  | _ => none

/-- A choice, written as its name or as an object that gives the name nothing. -/
def scan? : Json → Option RepeatedScan
  | .string (some name) => scanOfName? name
  | .object [(some name, .null)] => scanOfName? name
  | _ => none

/-- A member, or its default when it is not given. -/
def orDefault {α : Type} (read : Json → Option α) (default : α) : Option Json → Option α
  | none => some default
  | some value => read value

/-- The configuration in a JSON value. -/
def ofJson? (value : Json) : Option Config :=
  if !value.hasPlainNames memberNames then none else
  match value.fields? memberNames with
  | some [scan, hides, raises, size] => do
    let d : Config := {}
    some
      { repeatedScan := ← orDefault scan? d.repeatedScan scan
        storeRangeHidesInexact := ← orDefault Json.bool? d.storeRangeHidesInexact hides
        zeroDivisorAlwaysRaises := ← orDefault Json.bool? d.zeroDivisorAlwaysRaises raises
        memorySize := ← orDefault (Json.natBelow? (Nat.pow 2 64)) d.memorySize size }
  | _ => none

/-- The configuration in a JSON text. -/
def ofText? (text : String) : Option Config := Json.parse? text >>= ofJson?

end Config

end Ia32
