import RadioPacket.Layout.Equality
import RadioPacket.ValueError

/-!
# Containers

A container holds the values of one instance of a layout, a cell for each slot.  The cells are
plain data: a nested structure is the list of its own cells, and its layout is the one that the
field declares.  A gated field reads as absent while its enable is false, whatever its cell holds.
-/

namespace RadioPacket

/-- What a container stores for one slot. -/
inductive Cell where
  | enable (present : Bool)
  | leaf (value : Scalar) (mode : Mode)
  | record (cells : List Cell) (mode : Mode)
  | reserved

/-- Values of one instance of a layout. -/
structure Container where
  layout : Layout
  cells : List Cell

/-- A value of a field or of an enable. -/
inductive Value where
  | scalar (value : Scalar)
  | record (value : Container)

def Value.kind : Value → String
  | .scalar value => value.kind
  | .record _ => "structure"

/-- The presence that the declared mode of a linked field gives to an enable. -/
def Slot.declaredPresence (slots : List Slot) (link : Option Nat) : Bool :=
  (do
    let slot ← slots[← link]?
    let field ← slot.item.field?
    field.mode.presence?).getD false

mutual

/-- The cells of a new instance: default values, and enables as the declared modes say. -/
def Layout.freshCells : Layout → List Cell
  | ⟨_, slots, _, _, _⟩ => Slot.freshCells slots slots
termination_by structural layout => layout

/-- The new cells of some slots among `all` slots. -/
def Slot.freshCells : (slots all : List Slot) → List Cell
  | [], _ => []
  | ⟨.field ⟨_, .leaf type, mode, _, _, _⟩, _, _⟩ :: slots, all =>
      .leaf type.default mode :: Slot.freshCells slots all
  | ⟨.field ⟨_, .record layout, mode, _, _, _⟩, _, _⟩ :: slots, all =>
      .record layout.freshCells mode :: Slot.freshCells slots all
  | ⟨.enable _, _, link⟩ :: slots, all =>
      .enable (Slot.declaredPresence all link) :: Slot.freshCells slots all
  | ⟨.reserved _, _, _⟩ :: slots, all => .reserved :: Slot.freshCells slots all
termination_by structural slots => slots

end

namespace Cell

def mode? : Cell → Option Mode
  | .leaf _ mode => some mode
  | .record _ mode => some mode
  | _ => none

/-- The cell with another mode; only a field has one. -/
def withMode (mode : Mode) : Cell → Cell
  | .leaf value _ => .leaf value mode
  | .record cells _ => .record cells mode
  | other => other

def isSet : Cell → Bool
  | .enable present => present
  | _ => false

end Cell

def Cell.isSetAt (cells : List Cell) (index : Nat) : Bool :=
  match cells[index]? with
  | some cell => cell.isSet
  | none => false

/-- A field with the given link is present: it has no enable, or its enable is set. -/
def Cell.isOpen (cells : List Cell) (link : Option Nat) : Bool :=
  match link with
  | none => true
  | some index => Cell.isSetAt cells index

/-- The cell of a field that nothing was assigned to. -/
def FieldType.freshCell (mode : Mode) : FieldType → Cell
  | .leaf type => .leaf type.default mode
  | .record layout => .record layout.freshCells mode

/-- The value that a cell shows in a field of the given type. -/
def FieldType.valueOf : FieldType → Cell → Value
  | .record layout, .record cells _ => .record ⟨layout, cells⟩
  | _, .leaf value _ => .scalar value
  | _, _ => .scalar (.unsigned 0)

/-- The value that a cell shows in its slot.  Reserved bits show zero. -/
def Slot.valueOf (slot : Slot) (cell : Cell) : Value :=
  match slot.item with
  | .field field => field.type.valueOf cell
  | .enable _ => .scalar (.bool cell.isSet)
  | .reserved _ => .scalar (.unsigned 0)

namespace Container

def new (layout : Layout) : Container := ⟨layout, layout.freshCells⟩

/-- The item at an index reads as absent: it is a gated field whose enable is false. -/
def isAbsent (c : Container) (slot : Slot) : Bool :=
  slot.item.field?.isSome && !Cell.isOpen c.cells slot.link

/-- The value at an index, `none` for an absent field and outside the layout. -/
def get? (c : Container) (index : Nat) : Option Value := do
  let slot ← c.layout.slot? index
  let cell ← c.cells[index]?
  if c.isAbsent slot then none else some (slot.valueOf cell)

def index (c : Container) (name : String) : Except ValueError Nat :=
  match c.layout.index? name with
  | some index => .ok index
  | none => .error (.unknownField name)

/-- The value of the item with the given name, `none` for an absent field. -/
def read (c : Container) (name : String) : Except ValueError (Option Value) :=
  (c.index name).map c.get?

def has (c : Container) (name : String) : Except ValueError Bool :=
  (c.read name).map Option.isSome

/-- The index of the field with the given name; enables and reserved bits have no mode. -/
def modeIndex (c : Container) (name : String) : Except ModeError Nat :=
  match c.layout.index? name with
  | none => .error (.unknownField name)
  | some index =>
      match (c.layout.slot? index).bind fun slot => slot.item.field? with
      | some _ => .ok index
      | none => .error (.unknownField name)

def modeAt (c : Container) (index : Nat) : Mode :=
  (c.cells[index]?.bind Cell.mode?).getD .disabled

def mode (c : Container) (name : String) : Except ModeError Mode :=
  (c.modeIndex name).map c.modeAt

/-- The named items that are not reserved, in order, with their values. -/
def entries (c : Container) : List (String × Option Value) :=
  (List.range c.layout.slots.length).filterMap fun index => do
    let slot ← c.layout.slot? index
    let name ← slot.name?
    if slot.item.isReserved then none else some (name, c.get? index)

/-- The nested structure at an index, present or not. -/
def nestedAt (c : Container) (index : Nat) : Except ValueError Container :=
  match c.layout.slot? index, c.cells[index]? with
  | some slot, some cell =>
      match slot.valueOf cell with
      | .record nested => .ok nested
      | other => .error (.kind "structure" other.kind)
  | _, _ => .error (.unknownField ("#" ++ toString index))

/-- The nested structure of the given name, present or not. -/
def nested (c : Container) (name : String) : Except ValueError Container := do
  c.nestedAt (← c.index name)

end Container

end RadioPacket
