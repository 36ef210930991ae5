import RadioPacket.Leaf.Basic
import RadioPacket.ValueError

/-!
# Values of leaf types

A value is first brought to the normal form of its type by `coerce`; only normal values are stored.
`pattern` gives the unsigned number that stands for a normal value on the wire, `encode` does both
steps, and `decode` reads a pattern back, using only its low bits.
-/

namespace RadioPacket

namespace LeafType

def kindError (type : LeafType) (found : String) : ValueError := .kind type.kind found

/-- An integer within the limits, in the scalar kind given by `normal`. -/
def coerceInt (type : LeafType) (low high : Int) (normal : Int → Scalar) (value : Scalar) :
    Except ValueError Scalar :=
  match value.integer? with
  | none => .error (type.kindError value.kind)
  | some number =>
      if number < low ∨ high < number then .error (.range value (.signed low) (.signed high))
      else .ok (normal number)

/-- Brings a value to the normal form of the type, or says why it is not one of its values.  An
integer becomes a boolean or a fixed-point number where one is needed; a boolean is only a
boolean. -/
def coerce (type : LeafType) (value : Scalar) : Except ValueError Scalar :=
  match type.shape with
  | .boolean _ =>
      match value.toInt? with
      | some number => .ok (.bool (number != 0))
      | none => .error (type.kindError value.kind)
  | .integer bits true =>
      type.coerceInt (-2 ^ (bits - 1)) (2 ^ (bits - 1) - 1) .signed value
  | .integer bits false =>
      type.coerceInt 0 (2 ^ bits - 1) (fun number => .unsigned number.toNat) value
  | .nonZeroSize bits =>
      type.coerceInt 1 (2 ^ bits) (fun number => .unsigned number.toNat) value
  | .fixedPoint _ _ _ =>
      match value.toFloat?, type.floatRange? with
      | some number, some (low, high) =>
          if low.le number && number.le high then .ok (.float number)
          else .error (.range value (.float low) (.float high))
      | _, _ => .error (type.kindError value.kind)
  | .enumeration table =>
      match value.integer? with
      | none => .error (type.kindError value.kind)
      | some number =>
          if 0 ≤ number ∧ (table.symbol? number.toNat).isSome then .ok (.unsigned number.toNat)
          else .error (.notMember table.name value.text)

/-- The nearest number to `value` between the limits of a 64-bit word. -/
def clampWord (signed : Bool) (value : Int) : Int :=
  if signed then max (-2 ^ 63) (min value (2 ^ 63 - 1)) else max 0 (min value (2 ^ 64 - 1))

/-- The number that a normal value stands for on the wire, before it is cut to the width.  A value
of another kind counts as zero. -/
def wireNumber (type : LeafType) (value : Scalar) : Int :=
  match type.shape, value with
  | .boolean _, .bool true => -1
  | .integer _ _, .signed number => number
  | .integer _ _, .unsigned number => number
  | .fixedPoint _ radix signed, .float number => clampWord signed (number.roundScaled radix)
  | .nonZeroSize _, .unsigned number => (number - 1 : Nat)
  | .enumeration _, .unsigned number => number
  | _, _ => 0

/-- The unsigned pattern of a normal value: its number in two's complement, cut to the width. -/
def pattern (type : LeafType) (value : Scalar) : Nat :=
  (type.wireNumber value % 2 ^ type.bits).toNat

/-- Checks a value and gives its pattern. -/
def encode (type : LeafType) (value : Scalar) : Except ValueError Nat :=
  (type.coerce value).map type.pattern

/-- The value of a pattern.  Only the low bits count; a pattern that no symbol of an enumeration
has is refused. -/
def decode (type : LeafType) (pattern : Nat) : Except ValueError Scalar :=
  let raw := pattern % 2 ^ type.bits
  match type.shape with
  | .boolean _ => .ok (.bool (raw != 0))
  | .integer bits true => .ok (.signed (Bits.signExtend raw bits))
  | .integer _ false => .ok (.unsigned raw)
  | .fixedPoint bits radix signed =>
      .ok (.float (.ofScaled (if signed then Bits.signExtend raw bits else raw) radix))
  | .nonZeroSize _ => .ok (.unsigned (raw + 1))
  | .enumeration table =>
      if (table.symbol? raw).isSome then .ok (.unsigned raw)
      else .error (.notMember table.name (toString raw))

end LeafType

end RadioPacket
