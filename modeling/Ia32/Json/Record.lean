import Ia32.Json.Value

/-!
# Records

A record is an object whose members have fixed names, or an array of the members
in the order of their names.  Members with other names are skipped.
-/

namespace Ia32.Json

/-- Whether no member is given twice among those with some names, and every name is a text. -/
def hasPlainNames (names : List String) : Json → Bool
  | .object members =>
    members.all (·.1.isSome) && names.all fun name => (membersNamed name members).length ≤ 1
  | _ => true

/-- The members of a record.  A member that is not there is `none`. -/
def fields? (names : List String) : Json → Option (List (Option Json))
  | .object members => some (names.map fun name => (membersNamed name members).getLast?)
  | .array items =>
    if items.length ≤ names.length then
      some (items.map some ++ List.replicate (names.length - items.length) none)
    else none
  | _ => none

/-- The members of a record, all of which must be there. -/
def allFields? (names : List String) (value : Json) : Option (List Json) := do
  (← value.fields? names).mapM id

/-- A list of values of a fixed length. -/
def vector? (n : Nat) {α : Type} (read : Json → Option α) : Json → Option (Vector α n)
  | .array items => do
    let values ← items.mapM read
    if h : values.toArray.size = n then some ⟨values.toArray, h⟩ else none
  | _ => none

end Ia32.Json
