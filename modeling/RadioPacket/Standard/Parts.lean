import RadioPacket.Workshop

/-!
# Structures given as tables

The structures of the VITA-49.2 standard are written as tables of parts, each with its leaf type
spelled out.  Building a table requests the types of its parts in order and lays the parts out.
-/

namespace RadioPacket.Standard

/-- One line of a table. -/
inductive Part where
  | field (name : String) (shape : LeafShape)
  /-- An enable and the name of its field. -/
  | enable (name field : String)
  | reserved (bits : Nat)

def flag : LeafShape := .boolean 1

def uint (bits : Nat) : LeafShape := .integer bits false

def int (bits : Nat) : LeafShape := .integer bits true

def fixed (bits radix : Nat) : LeafShape := .fixedPoint bits radix true

/-- An enumeration whose symbols count up from zero. -/
def counting (name : String) (bits : Nat) (symbols : List String) : LeafShape :=
  .enumeration { name, bits, symbols := symbols.zipIdx }

def Part.item : Part → Build Item
  | .field name shape => do return .field { name, type := .leaf (← Build.leaf shape) }
  | .enable name gated => return .enable { name, field := some gated }
  | .reserved bits => return .reserved { bits }

/-- The declaration of a table. -/
def declare (name : String) (parts : List Part) : Build Blueprint := do
  let items ← parts.mapM Part.item
  return { name, steps := items.map .append }

/-- The structure of a table. -/
def structureOf (name : String) (parts : List Part) : Build Layout := do
  Build.layout (← declare name parts)

/-- The part of fixed size of a structure whose lists or texts follow. -/
def openStructureOf (name : String) (parts : List Part) : Build Layout := do
  Build.layout { ← declare name parts with dynamicSize := true }

end RadioPacket.Standard
