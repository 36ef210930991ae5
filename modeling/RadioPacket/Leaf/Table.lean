import RadioPacket.Leaf.Basic

/-!
# Interned leaf types

A type table holds every leaf type that was asked for once, in the order of the first requests.  A
request answers the place of its type, so two requests declare the same type exactly when they get
the same place.  The name of an enumeration stands for one symbol table only.
-/

namespace RadioPacket

/-- The leaf types requested so far, without repetition. -/
structure TypeTable where
  types : List LeafType

/-- A leaf type together with its place in a table. -/
structure Interned where
  place : Nat
  type : LeafType

namespace TypeTable

def empty : TypeTable := ⟨[]⟩

def size (table : TypeTable) : Nat := table.types.length

/-- The symbol table that the table holds under a name. -/
def enumeration? (table : TypeTable) (name : String) : Option EnumTable :=
  table.types.findSome? fun type =>
    match type.table? with
    | some held => if held.name = name then some held else none
    | none => none

/-- The error of a request that would give a second meaning to the name of an enumeration. -/
def clash? (table : TypeTable) (type : LeafType) : Option LeafError :=
  match type.table? with
  | none => none
  | some declared =>
      match table.enumeration? declared.name with
      | none => none
      | some held =>
          if held = declared then none else some (.enumeration declared.name .redeclared)

/-- Finds a legal type in the table, or adds it at the end. -/
def insert (table : TypeTable) (type : LeafType) : Interned × TypeTable :=
  match table.types.idxOf? type with
  | some place => (⟨place, type⟩, table)
  | none => (⟨table.size, type⟩, ⟨table.types ++ [type]⟩)

/-- Requests the type of a shape.  The shape is checked before the table is looked at, and a
refused request leaves the table as it was. -/
def request (table : TypeTable) (shape : LeafShape) : Except LeafError Interned × TypeTable :=
  match shape.check with
  | .error error => (.error error, table)
  | .ok type =>
      match table.clash? type with
      | some error => (.error error, table)
      | none =>
          let (interned, grown) := table.insert type
          (.ok interned, grown)

end TypeTable

end RadioPacket
