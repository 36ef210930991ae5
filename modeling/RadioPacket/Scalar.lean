import RadioPacket.Number.Shortest

/-!
# Scalar values

What a leaf field can hold.  Signed and unsigned integers are kept apart because they report
different kinds, although they compare as numbers.
-/

namespace RadioPacket

/-- A value without structure. -/
inductive Scalar where
  | bool (value : Bool)
  | signed (value : Int)
  | unsigned (value : Nat)
  | float (value : Binary64)
  deriving DecidableEq

namespace Scalar

/-- The kind of a value as messages name it. -/
def kind : Scalar → String
  | .bool _ => "boolean"
  | .signed _ => "signed integer"
  | .unsigned _ => "unsigned integer"
  | .float _ => "float"

def toBool? : Scalar → Option Bool
  | .bool value => some value
  | _ => none

/-- The number behind an integer of either kind. -/
def integer? : Scalar → Option Int
  | .signed value => some value
  | .unsigned value => some value
  | _ => none

/-- The integer view: a boolean counts as 0 or 1, a float has none. -/
def toInt? : Scalar → Option Int
  | .bool value => some (value.toNat : Int)
  | other => other.integer?

/-- The float view: integers go to the nearest float, a boolean has none. -/
def toFloat? : Scalar → Option Binary64
  | .float value => some value
  | other => other.integer?.map Binary64.ofInt

def text : Scalar → String
  | .bool value => if value then "true" else "false"
  | .signed value => toString value
  | .unsigned value => toString value
  | .float value => value.text

/-- Equality of values: floats compare as numbers, and kinds are never mixed. -/
def same : Scalar → Scalar → Bool
  | .bool a, .bool b => a == b
  | .signed a, .signed b => a == b
  | .unsigned a, .unsigned b => a == b
  | .float a, .float b => a.sameNumber b
  | _, _ => false

end Scalar

end RadioPacket
