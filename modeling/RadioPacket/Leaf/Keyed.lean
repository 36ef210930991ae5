import RadioPacket.Leaf.Table

/-!
# Type tables by key

The second account of a type table keeps each type under a key and looks the key up before anything
is made.  The key has all parameters of a type, but for an enumeration it is the name alone, so a
request for one compares what the table holds under the name with what is declared.
-/

namespace RadioPacket

/-- What a leaf type is looked up by. -/
inductive LeafKey where
  | boolean (bits : Nat)
  | integer (bits : Nat) (signed : Bool)
  | fixedPoint (bits radix : Nat) (signed : Bool)
  | nonZeroSize (bits : Nat)
  | enumeration (name : String)
  deriving DecidableEq

def LeafShape.key : LeafShape → LeafKey
  | .boolean bits => .boolean bits
  | .integer bits signed => .integer bits signed
  | .fixedPoint bits radix signed => .fixedPoint bits radix signed
  | .nonZeroSize bits => .nonZeroSize bits
  | .enumeration table => .enumeration table.name

/-- The leaf types made so far, each under its key.  The place of a type tells it from all others
that the table has made. -/
structure KeyedTable where
  entries : List (LeafKey × Interned)

namespace KeyedTable

def empty : KeyedTable := ⟨[]⟩

def size (table : KeyedTable) : Nat := table.entries.length

def find? (table : KeyedTable) (key : LeafKey) : Option Interned :=
  (table.entries.find? fun entry => entry.1 == key).map (·.2)

/-- Answers what the table holds under a key.  If that is nothing, a type is made and kept, unless
it cannot be made. -/
def intern (table : KeyedTable) (key : LeafKey) (make : Except LeafError LeafType) :
    Except LeafError Interned × KeyedTable :=
  match table.find? key with
  | some held => (.ok held, table)
  | none =>
      match make with
      | .error error => (.error error, table)
      | .ok type => (.ok ⟨table.size, type⟩, ⟨table.entries ++ [(key, ⟨table.size, type⟩)]⟩)

/-- Requests an enumeration.  It is checked first, and compared with what its name stands for at the
end. -/
def enumeration (table : KeyedTable) (declared : EnumTable) :
    Except LeafError Interned × KeyedTable :=
  match (LeafShape.enumeration declared).check with
  | .error error => (.error error, table)
  | .ok type =>
      match table.intern (.enumeration declared.name) (.ok type) with
      | (.error error, kept) => (.error error, kept)
      | (.ok held, grown) =>
          if held.type = type then (.ok held, grown)
          else (.error (.enumeration declared.name .redeclared), grown)

def request (table : KeyedTable) : LeafShape → Except LeafError Interned × KeyedTable
  | .enumeration declared => table.enumeration declared
  | shape => table.intern shape.key shape.check

end KeyedTable

end RadioPacket
