import RadioPacket.Cif.Container
import RadioPacket.Container.InPlace

/-!
# Changing a container of a group in place

The same account for groups.  The indicator word is a container that is written to in place as well,
so whatever an operation has written in the word stays there when it is refused.
-/

namespace RadioPacket

namespace CifContainer

/-- Work on a container of a group in place. -/
abbrev Edit (ε α : Type) := InPlace CifContainer ε α

namespace Edit

open InPlace (check)

variable {ε α : Type}

/-- Work on the indicator word. -/
def inWord (work : Container.Edit ε α) : Edit ε α := fun c =>
  match work c.enables with
  | .ok answer enables => .ok answer { c with enables }
  | .error error enables => .error error { c with enables }

def write (index : Nat) (cell : Cell) : Edit ε Unit := modify fun c => c.put index cell

/-- Sets or resets the indicator bit of a payload field. -/
def mark (content : CifContent) (present : Bool) : Edit ε Unit :=
  inWord (Container.Edit.write content.enable (.enable present))

/-- Assigns a payload field, which sets its indicator bit, or a flag. -/
def assign (name : String) (value : Value) : Edit ValueError Unit := do
  match (← get).content? name with
  | none => inWord (Container.Edit.assign name value)
  | some (index, content) =>
      let cell ← check (content.type.accept ((← get).modeAt index) value)
      write index cell
      mark content true

def clear (name : String) : Edit ValueError Unit := do
  match (← get).content? name with
  | none => inWord (Container.Edit.clear name)
  | some (_, content) => mark content false

/-- Changes the mode of a payload field, and then its indicator bit if the mode decides presence. -/
def changeMode (name : String) (requested : Mode) : Edit ModeError Unit := do
  match (← get).content? name with
  | none => inWord (Container.Edit.changeMode name requested)
  | some (index, content) =>
      let next ← check (((← get).modeAt index).request requested name)
      modify fun c => { c with cells := c.cells.modify index (Cell.withMode next) }
      match next.presence? with
      | none => pure ()
      | some present => mark content present

/-- Marks a nested payload structure present, and gives its index and its values. -/
def enter (name : String) : Edit ValueError (Nat × Container) := do
  match (← get).index? name with
  | none => throw (.unknownField name)
  | some index =>
      match CifContainer.entry? (← get) index with
      | none => throw (.unknownField name)
      | some (content, cell) =>
          match content.type.valueOf cell with
          | .record inner =>
              mark content true
              return (index, inner)
          | other => throw (.kind "structure" other.kind)

/-- Works on a nested payload structure in place. -/
def within (name : String) (refuse : ValueError → ε) (work : Container.Edit ε α) : Edit ε α :=
  fun c =>
    match enter name c with
    | .error error left => .error (refuse error) left
    | .ok (index, inner) marked =>
        let store (changed : Container) : CifContainer :=
          marked.put index (.record changed.cells (marked.modeAt index))
        match work inner with
        | .ok answer changed => .ok answer (store changed)
        | .error error changed => .error error (store changed)

end Edit

end CifContainer

open CifContainer in
/-- Carries out an operation in place. -/
def CifOperation.perform : CifOperation → Edit OperationError Unit
  | .assign name value => (Edit.assign name value).adaptExcept .value
  | .clear name => (Edit.clear name).adaptExcept .value
  | .changeMode name requested => (Edit.changeMode name requested).adaptExcept .mode
  | .touch name => (do let _ ← Edit.enter name : Edit ValueError Unit).adaptExcept .value
  | .within name operation => Edit.within name .value operation.perform

end RadioPacket
