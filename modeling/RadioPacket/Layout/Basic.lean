import RadioPacket.Layout.Error
import RadioPacket.Mode

/-!
# Layouts

A structure is declared as a list of items: fields that hold values, enables that say whether
another field is present, and reserved runs of zero bits.  A `Layout` is the frozen form of such a
list.  Each item stands in a slot with its position, fields and enables that belong together are
linked, and the field type of a nested structure is again a layout.
-/

namespace RadioPacket

/-- A presence flag, one bit wide unless it is a wider gate whose bits are set together. -/
structure Enable where
  name : String
  bits : Nat := 1
  /-- The gated field.  It may live outside the structure that declares the enable. -/
  field : Option String := none
  deriving DecidableEq

/-- A run of zero bits. -/
structure Reserved where
  name : Option String := none
  bits : Nat
  deriving DecidableEq

mutual

/-- What a field holds: a primitive value or a nested structure. -/
inductive FieldType where
  | leaf (type : LeafType)
  | record (layout : Layout)

/-- A named item that holds a value. -/
structure Field where
  name : String
  type : FieldType
  /-- Declared presence policy, from which every container starts. -/
  mode : Mode := .required
  /-- Name of the enable that gates the field. -/
  enabledBy : Option String := none
  /-- A field that is not editable refuses assignment. -/
  editable : Bool := true
  /-- Indicator bit number of a payload field, independent of its position. -/
  indicatorBit : Option Nat := none

/-- One entry of a structure. -/
inductive Item where
  | field (field : Field)
  | enable (enable : Enable)
  | reserved (run : Reserved)

/-- An item at its place. -/
structure Slot where
  item : Item
  position : Position
  /-- Index of the slot that holds a field's enable, or an enable's field. -/
  link : Option Nat

/-- A frozen structure definition. -/
structure Layout where
  name : String
  slots : List Slot
  /-- Total length. -/
  bits : Nat
  warnings : List LayoutWarning
  /-- The slots cover only the part of fixed size at the start of the structure. -/
  dynamicSize : Bool

end

namespace FieldType

def bits : FieldType → Nat
  | .leaf type => type.bits
  | .record layout => layout.bits

def leaf? : FieldType → Option LeafType
  | .leaf type => some type
  | .record _ => none

end FieldType

namespace Field

def bits (field : Field) : Nat := field.type.bits

/-- Ties the field to the enable of the given name; a required field becomes optional. -/
def gatedBy (field : Field) (enable : String) : Field :=
  { field with enabledBy := some enable, mode := field.mode.gated }

end Field

namespace Item

def bits : Item → Nat
  | .field f => f.bits
  | .enable e => e.bits
  | .reserved r => r.bits

/-- The name of an item; a reserved run may have none. -/
def name? : Item → Option String
  | .field f => some f.name
  | .enable e => some e.name
  | .reserved r => r.name

def field? : Item → Option Field
  | .field f => some f
  | _ => none

def enable? : Item → Option Enable
  | .enable e => some e
  | _ => none

def isReserved : Item → Bool
  | .reserved _ => true
  | _ => false

def isEnableNamed (name : String) : Item → Bool
  | .enable e => e.name == name
  | _ => false

def isGatedBy (enable : String) : Item → Bool
  | .field f => f.enabledBy == some enable
  | _ => false

def label (item : Item) : String := item.name?.getD "<reserved>"

def kind : Item → String
  | .field _ => "field"
  | .enable _ => "enable"
  | .reserved _ => "reserved"

end Item

namespace Slot

def bits (slot : Slot) : Nat := slot.item.bits

def finish (slot : Slot) : Position := slot.position + slot.bits

def name? (slot : Slot) : Option String := slot.item.name?

end Slot

namespace Layout

def bytes (layout : Layout) : Nat := Bits.bytesFor layout.bits

def words (layout : Layout) : Nat := (layout.bits + (wordBits - 1)) / wordBits

def index? (layout : Layout) (name : String) : Option Nat :=
  layout.slots.findIdx? fun slot => slot.name? == some name

def slot? (layout : Layout) (index : Nat) : Option Slot := layout.slots[index]?

def find? (layout : Layout) (name : String) : Option Slot :=
  (layout.index? name).bind layout.slot?

/-- The slot of the enable that gates the field of the given name. -/
def enableOf? (layout : Layout) (name : String) : Option Slot := do
  let slot ← layout.find? name
  let _ ← slot.item.field?
  layout.slot? (← slot.link)

/-- Modes of the gated fields that are in use. -/
def gatedModes (layout : Layout) : List Mode :=
  layout.slots.filterMap fun slot => do
    let field ← slot.item.field?
    let _ ← slot.link
    if field.mode.isEnabled then some field.mode else none

/-- At least one gated field is in use. -/
def usesGates (layout : Layout) : Bool := !layout.gatedModes.isEmpty

/-- No gated field in use is required, so the structure as a whole may be left out. -/
def isOmittable (layout : Layout) : Bool := layout.gatedModes.all Mode.isOptional

mutual

/-- The structure is of dynamic size, or contains one that is. -/
def isTemplate : Layout → Bool
  | ⟨_, slots, _, _, dynamicSize⟩ => dynamicSize || anyTemplate slots
termination_by structural layout => layout

/-- Some slot holds a structure that is a template. -/
def anyTemplate : List Slot → Bool
  | [] => false
  | ⟨.field ⟨_, .record layout, _, _, _, _⟩, _, _⟩ :: slots =>
      layout.isTemplate || anyTemplate slots
  | _ :: slots => anyTemplate slots
termination_by structural slots => slots

end

end Layout

end RadioPacket
