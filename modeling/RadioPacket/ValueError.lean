import RadioPacket.Bits.Basic
import RadioPacket.Scalar

/-!
# Refused values

The reasons why a value cannot be assigned to an item, read from it, or decoded from bytes.
-/

namespace RadioPacket

/-- Why a value is refused. -/
inductive ValueError where
  /-- A number lies outside the limits of its type. -/
  | range (value low high : Scalar)
  /-- No such member of the named enumeration. -/
  | notMember (enumeration value : String)
  /-- A value of another kind is needed. -/
  | kind (expected found : String)
  | reserved (label : String)
  | readOnly (field : String)
  /-- The field has no enable that could mark it absent. -/
  | notOptional (field : String)
  | unknownField (name : String)
  deriving DecidableEq

def ValueError.message : ValueError → String
  | .range value low high =>
      "value " ++ value.text ++ " is outside [" ++ low.text ++ ", " ++ high.text ++ "]"
  | .notMember enumeration value =>
      "`" ++ value ++ "` is not a member of enum `" ++ enumeration ++ "`"
  | .kind expected found => "expected " ++ expected ++ ", found " ++ found
  | .reserved label => "reserved item `" ++ label ++ "` cannot be set"
  | .readOnly field => "field `" ++ field ++ "` is read-only"
  | .notOptional field => "field `" ++ field ++ "` has no enable and cannot be cleared"
  | .unknownField name => "no field named `" ++ name ++ "`"

/-- Why bytes cannot be decoded. -/
inductive UnpackError where
  | bits (cause : BitError)
  | packetTooShort (required actual : Nat)
  | invalidValue (field : String) (cause : ValueError)
  deriving DecidableEq

def UnpackError.message : UnpackError → String
  | .bits cause => cause.message
  | .packetTooShort required actual =>
      "packet too short: need " ++ toString required ++ " bytes, have " ++ toString actual
  | .invalidValue field cause => "invalid value for `" ++ field ++ "`: " ++ cause.message

end RadioPacket
