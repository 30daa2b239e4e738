import Ia32.Json.Value
import Ia32.Text.Hex

/-!
# Writing JSON

A value is written without blanks.  In strings the quote, the backslash and the
control characters are escaped.
-/

namespace Ia32.Json

/-- A character as it stands in a string. -/
def escapeChar (c : Char) : String :=
  if c = '"' then "\\\""
  else if c = '\\' then "\\\\"
  else if c = '\n' then "\\n"
  else if c = '\r' then "\\r"
  else if c = '\t' then "\\t"
  else if c.toNat < 0x20 then "\\u" ++ Hex.lower 4 c.toNat
  else c.toString

/-- A string with its quotes.  The string that no text spells is written as half of a
surrogate pair. -/
def renderString : Option String → String
  | some text => "\"" ++ String.join (text.toList.map escapeChar) ++ "\""
  | none => "\"\\ud800\""

mutual

/-- A value as JSON text. -/
def render : Json → String
  | .null => "null"
  | .bool true => "true"
  | .bool false => "false"
  | .integer n => toString n
  | .decimal negative digits exponent =>
    (if negative then "-" else "") ++ toString digits ++ "e" ++ toString exponent
  | .string s => renderString s
  | .array items => "[" ++ ",".intercalate (renderItems items) ++ "]"
  | .object members => "\x7b" ++ ",".intercalate (renderMembers members) ++ "\x7d"

/-- The items of an array as JSON texts. -/
def renderItems : List Json → List String
  | [] => []
  | item :: rest => render item :: renderItems rest

/-- The members of an object as JSON texts. -/
def renderMembers : List (Option String × Json) → List String
  | [] => []
  | (name, value) :: rest => (renderString name ++ ":" ++ render value) :: renderMembers rest

end

end Ia32.Json
