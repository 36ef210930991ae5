import RadioPacket.Container.Operation

/-!
# Changing a container in place

A second account of the operations, in which there is one container and it is written to step by
step.  Every look-up, check and write is carried out in its turn, and an operation that is refused
stops where it is: what it has written by then stays written, and nothing is put back.
-/

namespace RadioPacket

/-- Work on a state that is changed in place, and that may be refused on the way. -/
abbrev InPlace (σ ε α : Type) := EStateM ε σ α

/-- Stops when a check fails. -/
def InPlace.check {σ ε α : Type} : Except ε α → InPlace σ ε α
  | .ok value => pure value
  | .error error => throw error

namespace Container

/-- Work on a container in place. -/
abbrev Edit (ε α : Type) := InPlace Container ε α

namespace Edit

open InPlace (check)

variable {ε α : Type}

def write (index : Nat) (cell : Cell) : Edit ε Unit := modify fun c => c.put index cell

/-- Sets or resets a linked enable. -/
def mark (link : Option Nat) (present : Bool) : Edit ε Unit :=
  match link with
  | none => pure ()
  | some enable => write enable (.enable present)

def index (name : String) : Edit ValueError Nat := do
  check ((← get).index name)

/-- Assigns a value to the item at an index; `none` means absent. -/
def assignAt (index : Nat) (value : Option Value) : Edit ValueError Unit := do
  match (← get).layout.slot? index with
  | none => throw (.unknownField ("#" ++ toString index))
  | some slot =>
      match slot.item with
      | .reserved _ => throw (.reserved slot.item.label)
      | .enable enable =>
          let present ← check (Enable.stateOf enable.bits value)
          write index (.enable present)
      | .field field =>
          if !field.editable then throw (.readOnly field.name)
          else
            match value with
            | none =>
                match slot.link with
                | none => throw (.notOptional field.name)
                | some enable => write enable (.enable false)
            | some value =>
                let cell ← check (field.type.accept ((← get).modeAt index) value)
                write index cell
                mark slot.link true

def assign (name : String) (value : Value) : Edit ValueError Unit := do
  assignAt (← index name) (some value)

def clear (name : String) : Edit ValueError Unit := do
  assignAt (← index name) none

/-- Assigns an enumerated field by the name of a symbol. -/
def assignSymbol (name symbol : String) : Edit ValueError Unit := do
  let index ← index name
  match (← get).enumTable? index with
  | none => throw (.kind "enum" "non-enum field")
  | some table =>
      match table.valueOf? symbol with
      | none => throw (.notMember table.name symbol)
      | some value => assignAt index (some (.scalar (.unsigned value)))

/-- Changes the mode of a field, and then its enable if the mode decides presence. -/
def changeMode (name : String) (requested : Mode) : Edit ModeError Unit := do
  let index ← check ((← get).modeIndex name)
  let next ← check (((← get).modeAt index).request requested name)
  modify fun c => { c with cells := c.cells.modify index (Cell.withMode next) }
  match next.presence? with
  | none => pure ()
  | some present => mark (((← get).layout.slot? index).bind Slot.link) present

/-- Marks a nested structure present, and gives its index and its values.  The value is looked at
before the structure is marked, and once more afterwards. -/
def enter (name : String) : Edit ValueError (Nat × Container) := do
  let index ← index name
  let _ ← check ((← get).nestedAt index)
  mark (((← get).layout.slot? index).bind Slot.link) true
  let inner ← check ((← get).nestedAt index)
  return (index, inner)

/-- Works on a nested structure in place.  What is written in it is written, also when the work is
refused. -/
def within (name : String) (refuse : ValueError → ε) (work : Edit ε α) : Edit ε α := fun c =>
  match enter name c with
  | .error error left => .error (refuse error) left
  | .ok (index, inner) marked =>
      match work inner with
      | .ok answer changed => .ok answer (marked.replace index changed)
      | .error error changed => .error error (marked.replace index changed)

end Edit

end Container

open Container in
/-- Carries out an operation in place. -/
def Operation.perform : Operation → Edit OperationError Unit
  | .assignAt index value => (Edit.assignAt index value).adaptExcept .value
  | .assign name value => (Edit.assign name value).adaptExcept .value
  | .clear name => (Edit.clear name).adaptExcept .value
  | .assignSymbol name symbol => (Edit.assignSymbol name symbol).adaptExcept .value
  | .changeMode name requested => (Edit.changeMode name requested).adaptExcept .mode
  | .touch name => (do let _ ← Edit.enter name : Edit ValueError Unit).adaptExcept .value
  | .within name operation => Edit.within name .value operation.perform

end RadioPacket
