import RadioPacket.Number.Binary64

/-!
# JSON values

Definitions are exchanged as JSON.  A number written without point and exponent is an integer,
every other number is the nearest double.  The members of an object keep their order and have
distinct names when they come from a text.
-/

namespace RadioPacket

inductive Json where
  | null
  | bool (value : Bool)
  | int (value : Int)
  | float (value : Binary64)
  | string (value : String)
  | array (elements : List Json)
  | object (members : List (String × Json))

namespace Json

def member? (members : List (String × Json)) (name : String) : Option Json :=
  members.lookup name

def string? : Json → Option String
  | .string value => some value
  | _ => none

def bool? : Json → Option Bool
  | .bool value => some value
  | _ => none

/-- A natural number below `2 ^ bits`. -/
def nat? (bits : Nat) : Json → Option Nat
  | .int value => if 0 ≤ value ∧ value < 2 ^ bits then some value.toNat else none
  | _ => none

/-- Adds a member behind the others; an earlier one of the same name goes away. -/
def addMember (members : List (String × Json)) (name : String) (value : Json) :
    List (String × Json) :=
  members.filter (fun member => member.1 != name) ++ [(name, value)]

end Json

end RadioPacket
