import Ia32.Text.Blank

/-!
# The log

Messages have a category and a level.  Each category has a level of its own, and
a global level decides for the categories whose level is off.  A filter text
sets levels: entries are separated by commas, `category=level` sets one category
and a bare level sets the global one.  A message is made only when it passes.
-/

namespace Ia32

namespace Log

/-! ## Levels and categories -/

/-- How important a message is, and how much is logged. -/
inductive Level where
  /-- Nothing. -/
  | off
  /-- Failures. -/
  | error
  /-- Oddities. -/
  | warn
  /-- News. -/
  | info
  /-- Causes of faults. -/
  | debug
  /-- Every step. -/
  | trace
deriving DecidableEq, Repr

/-- What a message is about. -/
inductive Category where
  /-- Instructions. -/
  | cpu
  /-- Checks of memory operands. -/
  | memory
  /-- Ports. -/
  | io
  /-- Floating-point exceptions. -/
  | fpu
  /-- Faults. -/
  | faults
  /-- What is not implemented. -/
  | stubs
deriving DecidableEq, Repr

/-- The place of a level in their order. -/
def Level.rank : Level → Nat
  | .off => 0
  | .error => 1
  | .warn => 2
  | .info => 3
  | .debug => 4
  | .trace => 5

/-- The name of a level. -/
def Level.name : Level → String
  | .off => "Off"
  | .error => "Error"
  | .warn => "Warn"
  | .info => "Info"
  | .debug => "Debug"
  | .trace => "Trace"

/-- The letters of a text in lower case.  No name of a level or category holds a letter that
a character beyond ASCII has as its lower case. -/
def lowerCase (text : List Char) : String := String.ofList (text.map Char.toLower)

/-- The level that a text names, by a word or by its place. -/
def Level.ofText? (text : List Char) : Option Level :=
  match lowerCase text with
  | "off" | "0" => some .off
  | "error" | "err" | "1" => some .error
  | "warn" | "warning" | "2" => some .warn
  | "info" | "3" => some .info
  | "debug" | "4" => some .debug
  | "trace" | "5" => some .trace
  | _ => none

/-- All categories. -/
def Category.all : List Category := [.cpu, .memory, .io, .fpu, .faults, .stubs]

/-- The place of a category among them. -/
def Category.index : Category → Fin 6
  | .cpu => 0
  | .memory => 1
  | .io => 2
  | .fpu => 3
  | .faults => 4
  | .stubs => 5

/-- The name of a category, as it stands before messages. -/
def Category.name : Category → String
  | .cpu => "CPU"
  | .memory => "Memory"
  | .io => "Io"
  | .fpu => "Fpu"
  | .faults => "Faults"
  | .stubs => "Stubs"

/-- The category that a text names. -/
def Category.ofText? (text : List Char) : Option Category :=
  match lowerCase text with
  | "cpu" => some .cpu
  | "memory" | "mem" => some .memory
  | "io" | "port" => some .io
  | "fpu" | "x87" => some .fpu
  | "faults" | "fault" => some .faults
  | "stubs" | "stub" => some .stubs
  | _ => none

end Log

/-- The levels of a log and the lines it holds. -/
structure Log where
  /-- The level of the categories whose own level is off. -/
  globalLevel : Log.Level
  /-- The level of each category. -/
  levels : Vector Log.Level 6
  /-- How many messages may pass in a second.  Zero lets none pass.  There is no clock here, so
  any other number is for the host to heed. -/
  rate : Nat
  /-- Whether the lines are kept. -/
  keepsLines : Bool
  /-- The lines kept so far. -/
  lines : Array String
deriving DecidableEq, Repr

namespace Log

/-- The log with every level off. -/
def silent : Log where
  globalLevel := .off
  levels := Vector.replicate 6 .off
  rate := 60
  keepsLines := true
  lines := #[]

/-- The level of a category. -/
def level (log : Log) (category : Category) : Level := log.levels[category.index]

/-- Sets the level of a category. -/
def setLevel (log : Log) (category : Category) (level : Level) : Log :=
  { log with levels := log.levels.set category.index level }

/-- Sets all levels to off. -/
def turnOff (log : Log) : Log :=
  { log with globalLevel := .off, levels := Vector.replicate 6 .off }

/-- Whether messages of a category and level pass the levels. -/
def admits (log : Log) (category : Category) (level : Level) : Bool :=
  let own := log.level category
  let bound := if own = .off then log.globalLevel else own
  level != .off && level.rank ≤ bound.rank

/-- Whether messages of a category and level are made. -/
def passes (log : Log) (category : Category) (level : Level) : Bool :=
  log.admits category level && log.rate != 0

/-- Logs a message, if it passes. -/
def write (log : Log) (category : Category) (level : Level) (message : Unit → String) : Log :=
  if log.passes category level && log.keepsLines then
    let name := category.name
    let text := message ()
    { log with lines := log.lines.push s!"[{name}] {text}" }
  else log

/-! ## Filters -/

/-- What is wrong with a filter. -/
inductive FilterError where
  /-- A category that does not exist. -/
  | unknownCategory (name : String)
  /-- A level that does not exist. -/
  | unknownLevel (name : String)
deriving DecidableEq, Repr

/-- The text of a filter error. -/
def FilterError.message : FilterError → String
  | .unknownCategory name => s!"unknown log category '{name}'"
  | .unknownLevel name => s!"unknown log level '{name}'"

/-- Applies one entry of a filter. -/
def applyEntry (log : Log) (entry : List Char) : Except FilterError Log :=
  let before := entry.takeWhile (· != '=')
  match entry.dropWhile (· != '=') with
  | [] =>
    match Level.ofText? entry with
    | some level => .ok { log with globalLevel := level }
    | none => .error (.unknownLevel (String.ofList entry))
  | _ :: after =>
    match Category.ofText? (Blank.trim before), Level.ofText? (Blank.trim after) with
    | some category, some level => .ok (log.setLevel category level)
    | none, _ => .error (.unknownCategory (String.ofList before))
    | some _, none => .error (.unknownLevel (String.ofList after))

/-- Applies entries up to the first that is wrong. -/
def applyEntries (log : Log) : List (List Char) → Option FilterError × Log
  | [] => (none, log)
  | entry :: rest =>
    match log.applyEntry entry with
    | .ok log => log.applyEntries rest
    | .error e => (some e, log)

/-- The entries of a filter that are not blank. -/
def entriesOf (filter : String) : List (List Char) :=
  ((Blank.splitAt ',' filter.toList).map Blank.trim).filter (!·.isEmpty)

/-- Applies a filter.  The entries before a wrong one stay applied. -/
def applyFilter (log : Log) (filter : String) : Option FilterError × Log :=
  log.applyEntries (entriesOf filter)

end Log

end Ia32
