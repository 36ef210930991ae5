import RadioPacket.Cif.Group
import RadioPacket.Container.Equality
import RadioPacket.Container.Operation

/-!
# Values of an indicator field group

A group's container holds the values of the indicator word and a cell for each payload field.  The
indicator bit of a payload field decides whether the field is present.  A name is looked up among
the payload fields first and in the indicator word otherwise, so flags are read and set like
fields of the group.
-/

namespace RadioPacket

/-- Values of one instance of a group. -/
structure CifContainer where
  group : CifGroup
  enables : Container
  /-- A cell for each payload field. -/
  cells : List Cell

namespace CifContainer

/-- Sets the indicator bits of payload fields whose declared mode decides presence. -/
def markDeclared (enables : Container) (content : CifContent) : Container :=
  match content.mode.presence? with
  | none => enables
  | some present => enables.mark (some content.enable) present

def freshCells (group : CifGroup) : List Cell :=
  group.content.map fun content => content.type.freshCell content.mode

def new (group : CifGroup) : CifContainer where
  group
  enables := group.content.foldl markDeclared (Container.new group.enables)
  cells := freshCells group

def index? (c : CifContainer) (name : String) : Option Nat :=
  c.group.content.findIdx? fun content => content.name == name

/-- The indicator bit of a payload field is set. -/
def announces (c : CifContainer) (content : CifContent) : Bool :=
  Cell.isSetAt c.enables.cells content.enable

def entry? (c : CifContainer) (index : Nat) : Option (CifContent × Cell) := do
  some (← c.group.content[index]?, ← c.cells[index]?)

/-- The value of the payload field at an index, `none` when its indicator bit is not set. -/
def get? (c : CifContainer) (index : Nat) : Option Value := do
  let (content, cell) ← c.entry? index
  if c.announces content then some (content.type.valueOf cell) else none

/-- The value of a payload field, or the state of a flag. -/
def read (c : CifContainer) (name : String) : Except ValueError (Option Value) :=
  match c.index? name with
  | some index => .ok (c.get? index)
  | none => c.enables.read name

def put (c : CifContainer) (index : Nat) (cell : Cell) : CifContainer :=
  { c with cells := c.cells.set index cell }

def mark (c : CifContainer) (content : CifContent) (present : Bool) : CifContainer :=
  { c with enables := c.enables.mark (some content.enable) present }

/-- Runs a change of the indicator word. -/
def inWord {ε : Type} (c : CifContainer) (change : Container → Except ε Container) :
    Except ε CifContainer :=
  (change c.enables).map fun enables => { c with enables }

def modeAt (c : CifContainer) (index : Nat) : Mode :=
  (c.cells[index]?.bind Cell.mode?).getD .disabled

def content? (c : CifContainer) (name : String) : Option (Nat × CifContent) := do
  let index ← c.index? name
  some (index, ← c.group.content[index]?)

/-- Assigns a payload field, which sets its indicator bit, or a flag. -/
def assign (c : CifContainer) (name : String) (value : Value) :
    Except ValueError CifContainer :=
  match c.content? name with
  | none => c.inWord fun enables => enables.assign name value
  | some (index, content) =>
      (content.type.accept (c.modeAt index) value).map fun cell =>
        (c.put index cell).mark content true

def clear (c : CifContainer) (name : String) : Except ValueError CifContainer :=
  match c.content? name with
  | none => c.inWord fun enables => enables.clear name
  | some (_, content) => .ok (c.mark content false)

def mode (c : CifContainer) (name : String) : Except ModeError Mode :=
  match c.index? name with
  | some index => .ok (c.modeAt index)
  | none => c.enables.mode name

/-- Changes the mode of a payload field and keeps its indicator bit consistent. -/
def changeMode (c : CifContainer) (name : String) (requested : Mode) :
    Except ModeError CifContainer :=
  match c.content? name with
  | none => c.inWord fun enables => enables.changeMode name requested
  | some (index, content) =>
      ((c.modeAt index).request requested name).map fun next =>
        let changed : CifContainer :=
          { c with cells := c.cells.modify index (Cell.withMode next) }
        match next.presence? with
        | none => changed
        | some present => changed.mark content present

/-- Marks a nested payload structure present, and gives its index and its values. -/
def enter (c : CifContainer) (name : String) :
    Except ValueError (CifContainer × Nat × Container) :=
  match c.index? name with
  | none => .error (.unknownField name)
  | some index =>
      match c.entry? index with
      | none => .error (.unknownField name)
      | some (content, cell) =>
          match content.type.valueOf cell with
          | .record inner => .ok (c.mark content true, index, inner)
          | other => .error (.kind "structure" other.kind)

/-- Runs a change on a nested payload structure, which is marked present first. -/
def within {α : Type} (c : CifContainer) (name : String) (refuse : ValueError → α)
    (change : Container → Container × α) : CifContainer × α :=
  match c.enter name with
  | .error error => (c, refuse error)
  | .ok (marked, index, inner) =>
      let (changed, answer) := change inner
      (marked.put index (.record changed.cells (marked.modeAt index)), answer)

def modes (c : CifContainer) : List Mode :=
  (List.range c.group.content.length).map c.modeAt

/-- The containers show the same values: the indicator words agree, and so do the payload fields
that they announce. -/
def same (a b : CifContainer) : Bool :=
  decide (a.group = b.group) && a.enables.same b.enables &&
    (List.range a.group.content.length).all fun index =>
      match a.entry? index, b.entry? index with
      | some (content, x), some (_, y) =>
          !a.announces content ||
            match content.type, x, y with
            | .leaf _, .leaf x _, .leaf y _ => x.same y
            | .record layout, .record x _, .record y _ => layout.sameCells x y
            | _, _, _ => false
      | _, _ => false

end CifContainer

inductive CifOperation where
  | assign (name : String) (value : Value)
  | clear (name : String)
  | changeMode (name : String) (requested : Mode)
  /-- Marks a nested payload structure present and changes nothing in it. -/
  | touch (name : String)
  /-- Changes a nested payload structure. -/
  | within (name : String) (operation : Operation)

/-- The outcome of an operation that stands alone. -/
def CifOperation.settle {ε : Type} (c : CifContainer) (refuse : ε → OperationError) :
    Except ε CifContainer → CifContainer × Except OperationError Unit
  | .ok changed => (changed, .ok ())
  | .error error => (c, .error (refuse error))

def CifOperation.run : CifOperation → CifContainer → CifContainer × Except OperationError Unit
  | .assign name value, c => settle c .value (c.assign name value)
  | .clear name, c => settle c .value (c.clear name)
  | .changeMode name requested, c => settle c .mode (c.changeMode name requested)
  | .touch name, c => settle c .value ((c.enter name).map (·.1))
  | .within name operation, c =>
      c.within name (fun error => .error (.value error)) operation.run

end RadioPacket
