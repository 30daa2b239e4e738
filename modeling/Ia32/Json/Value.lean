/-!
# JSON values

A number without fraction and exponent is an integer, and any other number keeps
its digits and its power of ten.  A string is `none` when an escape in it names
half of a surrogate pair and the other half is missing: no text is spelled so.
-/

namespace Ia32

/-- A JSON value. -/
inductive Json where
  /-- The null value. -/
  | null
  /-- A truth value. -/
  | bool (value : Bool)
  /-- A number written without fraction and exponent. -/
  | integer (value : Int)
  /-- The number `digits * 10 ^ exponent` with a sign.  Minus zero is one of these. -/
  | decimal (negative : Bool) (digits : Nat) (exponent : Int)
  /-- A string. -/
  | string (text : Option String)
  /-- A list of values. -/
  | array (items : List Json)
  /-- Named values, in the order in which they are written. -/
  | object (members : List (Option String × Json))
deriving Repr, Inhabited

namespace Json

/-- A string value. -/
def text (s : String) : Json := .string (some s)

/-- A number that is not negative. -/
def nat (n : Nat) : Json := .integer n

/-- An object with members whose names are texts. -/
def record (members : List (String × Json)) : Json :=
  .object (members.map fun (name, value) => (some name, value))

/-- The members with a given name. -/
def membersNamed (name : String) (members : List (Option String × Json)) : List Json :=
  (members.filter fun m => m.1 == some name).map (·.2)

/-- The last member with a given name. -/
def member? (name : String) : Json → Option Json
  | .object members => (membersNamed name members).getLast?
  | _ => none

/-- A number below a bound. -/
def natBelow? (bound : Nat) : Json → Option Nat
  | .integer n => if 0 ≤ n && n < bound then some n.toNat else none
  | _ => none

/-- A bit vector, written as the number that it stands for. -/
def bits? (w : Nat) (value : Json) : Option (BitVec w) :=
  (value.natBelow? (Nat.pow 2 w)).map (BitVec.ofNat w)

/-- A truth value. -/
def bool? : Json → Option Bool
  | .bool b => some b
  | _ => none

end Json

end Ia32
