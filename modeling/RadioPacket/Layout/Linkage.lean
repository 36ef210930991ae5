import RadioPacket.Layout.Basic

/-!
# Linking fields and enables

A gate may be declared on either side: a field names its enable, or an enable names its field.
Resolving makes both sides name each other.  The fields are taken first, each claiming the enable
it names; then every enable that no field claimed must name its field itself, which may also be an
item outside the structure.  Items are then laid out one behind the other, and links follow from
the resolved names.
-/

namespace RadioPacket

namespace Linkage

def enable? (items : List Item) (name : String) : Option Enable :=
  (items.find? (Item.isEnableNamed name)).bind Item.enable?

def field? (items : List Item) (name : String) : Option Field :=
  (items.find? fun item => item.name? == some name).bind Item.field?

/-- Some field names the enable of the given name as its own. -/
def isClaimed (items : List Item) (enable : String) : Bool :=
  items.any (Item.isGatedBy enable)

/-- Records the gated field in the enable of the given name. -/
def setGatedField (enable field : String) (items : List Item) : List Item :=
  items.map fun item =>
    match item with
    | .enable declared =>
        if declared.name = enable then .enable { declared with field := some field } else item
    | _ => item

/-- Gates the field of the given name. -/
def setGate (field enable : String) (items : List Item) : List Item :=
  items.map fun item =>
    match item with
    | .field declared =>
        if declared.name = field then .field (declared.gatedBy enable) else item
    | _ => item

/-- Lets a field claim the enable that it names. -/
def claim (layout : String) (items : List Item) (field : Field) :
    Except LayoutError (List Item) :=
  match field.enabledBy with
  | none => .ok items
  | some name =>
      match enable? items name with
      | none => .error (.unknownEnable layout field.name name)
      | some enable =>
          match enable.field with
          | none => .ok (setGatedField name field.name items)
          | some linked =>
              if linked = field.name then .ok items
              else .error (.enableAlreadyLinked layout name linked field.name)

/-- Lets an enable that no field claimed gate the field that it names.  A name that is no field of
the structure is left for the structure that holds it. -/
def assign (layout : String) (items : List Item) (enable : Enable) :
    Except LayoutError (List Item) :=
  if isClaimed items enable.name then .ok items
  else
    match enable.field with
    | none => .error (.unlinkedEnable layout enable.name)
    | some name =>
        match field? items name with
        | none => .ok items
        | some field =>
            match field.enabledBy with
            | none => .ok (setGate name enable.name items)
            | some other => .error (.enableAlreadyLinked layout other name enable.name)

/-- Makes fields and enables that belong together name each other. -/
def resolve (layout : String) (items : List Item) : Except LayoutError (List Item) := do
  let claimed ← (items.filterMap Item.field?).foldlM (claim layout) items
  (claimed.filterMap Item.enable?).foldlM (assign layout) claimed

/-- Index of the item that a resolved item is linked to. -/
def partner? (items : List Item) : Item → Option Nat
  | .field field => field.enabledBy.bind fun name => items.findIdx? (Item.isEnableNamed name)
  | .enable enable => items.findIdx? (Item.isGatedBy enable.name)
  | .reserved _ => none

/-- Places items one behind the other, linked within `all`. -/
def slotsFrom (all : List Item) (position : Position) : List Item → List Slot
  | [] => []
  | item :: rest =>
      { item, position, link := partner? all item } :: slotsFrom all (position + item.bits) rest

def slots (items : List Item) : List Slot := slotsFrom items .start items

end Linkage

end RadioPacket
