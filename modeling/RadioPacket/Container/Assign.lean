import RadioPacket.Container.Basic
import RadioPacket.Leaf.Codec

/-!
# Changing a container

Each change either succeeds with a new container or is refused, and then there is none.  Assigning
a value to a gated field sets its enable, clearing the field resets it; a change of mode sets or
resets the enable when the new mode decides presence.
-/

namespace RadioPacket

/-- The state that a value gives to an enable of `bits` bits: an integer counts by its low bits,
and no value means false. -/
def Enable.stateOf (bits : Nat) : Option Value → Except ValueError Bool
  | none => .ok false
  | some (.scalar (.bool present)) => .ok present
  | some (.scalar (.signed number)) => .ok (number % 2 ^ bits != 0)
  | some (.scalar (.unsigned number)) => .ok (number % 2 ^ bits != 0)
  | some other => .error (.kind "boolean" other.kind)

/-- The cell of a field that is given a value.  A structure must have the declared layout. -/
def FieldType.accept (mode : Mode) : FieldType → Value → Except ValueError Cell
  | .leaf type, .scalar value => (type.coerce value).map fun normal => .leaf normal mode
  | .leaf type, .record _ => .error (type.kindError "structure")
  | .record layout, .record value =>
      if value.layout = layout then .ok (.record value.cells mode)
      else .error (.kind "structure" "structure")
  | .record _, .scalar value => .error (.kind "structure" value.kind)

namespace Container

def put (c : Container) (index : Nat) (cell : Cell) : Container :=
  { c with cells := c.cells.set index cell }

/-- Sets or resets a linked enable. -/
def mark (c : Container) (link : Option Nat) (present : Bool) : Container :=
  match link with
  | none => c
  | some enable => c.put enable (.enable present)

/-- Assigns a value to the item at an index; `none` means absent. -/
def assignAt (c : Container) (index : Nat) (value : Option Value) : Except ValueError Container :=
  match c.layout.slot? index with
  | none => .error (.unknownField ("#" ++ toString index))
  | some slot =>
      match slot.item with
      | .reserved _ => .error (.reserved slot.item.label)
      | .enable enable => (Enable.stateOf enable.bits value).map fun present =>
          c.put index (.enable present)
      | .field field =>
          if !field.editable then .error (.readOnly field.name)
          else
            match value with
            | none =>
                match slot.link with
                | none => .error (.notOptional field.name)
                | some _ => .ok (c.mark slot.link false)
            | some value => (field.type.accept (c.modeAt index) value).map fun cell =>
                (c.put index cell).mark slot.link true

def assign (c : Container) (name : String) (value : Value) : Except ValueError Container := do
  c.assignAt (← c.index name) (some value)

/-- Marks the item with the given name absent. -/
def clear (c : Container) (name : String) : Except ValueError Container := do
  c.assignAt (← c.index name) none

def enumTable? (c : Container) (index : Nat) : Option EnumTable := do
  let slot ← c.layout.slot? index
  let field ← slot.item.field?
  let type ← field.type.leaf?
  type.table?

/-- Assigns an enumerated field by the name of a symbol. -/
def assignSymbol (c : Container) (name symbol : String) : Except ValueError Container := do
  let index ← c.index name
  match c.enumTable? index with
  | none => throw (.kind "enum" "non-enum field")
  | some table =>
      match table.valueOf? symbol with
      | none => throw (.notMember table.name symbol)
      | some value => c.assignAt index (some (.scalar (.unsigned value)))

/-- Changes the mode of a field and keeps its enable consistent. -/
def changeMode (c : Container) (name : String) (requested : Mode) :
    Except ModeError Container := do
  let index ← c.modeIndex name
  let next ← (c.modeAt index).request requested name
  let changed : Container := { c with cells := c.cells.modify index (Cell.withMode next) }
  match next.presence? with
  | none => return changed
  | some present => return changed.mark ((c.layout.slot? index).bind Slot.link) present

/-- Marks a nested structure present, and gives its index and its values. -/
def enter (c : Container) (name : String) :
    Except ValueError (Container × Nat × Container) := do
  let index ← c.index name
  let inner ← c.nestedAt index
  return (c.mark ((c.layout.slot? index).bind Slot.link) true, index, inner)

/-- Stores the values of a nested structure. -/
def replace (c : Container) (index : Nat) (inner : Container) : Container :=
  c.put index (.record inner.cells (c.modeAt index))

/-- Runs a change on a nested structure.  The structure is marked present first, and stays so when
the change inside is refused. -/
def within {α : Type} (c : Container) (name : String) (refuse : ValueError → α)
    (change : Container → Container × α) : Container × α :=
  match c.enter name with
  | .error error => (c, refuse error)
  | .ok (marked, index, inner) =>
      let (changed, answer) := change inner
      (marked.replace index changed, answer)

end Container

end RadioPacket
