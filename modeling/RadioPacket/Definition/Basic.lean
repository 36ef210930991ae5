import RadioPacket.Layout.Basic

/-!
# Definitions

A definition is what a schema says about a structure or an indicator field group, before any type
is made: types by their parameters, fields with their modes, places and initial values.  Enables
and reserved runs are declared as they are laid out.
-/

namespace RadioPacket

/-- A place in a definition, kept as it is written. -/
structure PositionDef where
  word : Nat
  bit : Nat
  deriving DecidableEq

/-- The bit that a written place means.  A place whose offset has no machine word is outside of every
packet, so nothing is rebound there (`Blueprint.offsetWord_of_place`). -/
def PositionDef.position (definition : PositionDef) : Position :=
  .ofWordBit definition.word definition.bit

/-- The initial value of a field.  A text names a symbol of an enumeration. -/
inductive ValueDef where
  | scalar (value : Scalar)
  | symbol (name : String)
  deriving DecidableEq

mutual

inductive TypeDef where
  | leaf (shape : LeafShape)
  | record (definition : StructDef)

structure FieldDef where
  name : String
  kind : TypeDef
  mode : Option Mode
  enabledBy : Option String
  editable : Bool
  /-- A field with a place rebinds reserved bits there. -/
  position : Option PositionDef
  value : Option ValueDef

inductive ItemDef where
  | field (definition : FieldDef)
  | enable (enable : Enable)
  | reserved (run : Reserved)

structure StructDef where
  name : String
  items : List ItemDef
  dynamicSize : Bool
  strict : Bool

end

/-- One bit of an indicator field group. -/
inductive CifFieldDef where
  | content (name : String) (bit : Nat) (kind : TypeDef) (mode : Option Mode)
  | indicator (name : String) (bit : Nat)
  | reserved (bit : Nat)

structure CifDef where
  name : String
  fields : List CifFieldDef

end RadioPacket
