import RadioPacket.Journal
import RadioPacket.Layout.Linkage

/-!
# Blueprints

A blueprint is the declaration of a structure before it is laid out: the items of a base, if there
is one, and then steps that append an item or rebind reserved bits to a field.  Items stand one
behind the other without gaps, so a list of items determines all positions; rebinding replaces a
reserved run by items of the same total width and moves nothing else.  `build` freezes a blueprint
into a layout, and `journal` is the list of events of that build.
-/

namespace RadioPacket

/-- One step of a declaration. -/
inductive Step where
  | append (item : Item)
  /-- Replaces reserved bits at a position by a field. -/
  | rebind (position : Position) (field : Field)

/-- The declaration of a structure. -/
structure Blueprint where
  name : String
  /-- Items that are placed before the first step. -/
  base : List Item := []
  steps : List Step := []
  /-- A warning makes the build fail. -/
  strict : Bool := false
  dynamicSize : Bool := false

/-- The widest gate, read as one unsigned number. -/
def Enable.maxBits : Nat := 64

/-- A packet is at most 65535 words long. -/
def Layout.maxBits : Nat := 65535 * wordBits

namespace Item

def maxBits : Item → Nat
  | .enable _ => Enable.maxBits
  | _ => Layout.maxBits

def totalBits : List Item → Nat
  | [] => 0
  | item :: rest => item.bits + totalBits rest

end Item

/-- A list of items cut at the item that covers a bit. -/
structure Cut where
  before : List Item
  item : Item
  /-- Bits of the item in front of the bit. -/
  inner : Nat
  after : List Item

/-- Cuts items at the one that covers the bit `offset` bits behind their start. -/
def Item.cutAt? : List Item → (offset : Nat) → Option Cut
  | [], _ => none
  | item :: rest, offset =>
      if offset < item.bits then some ⟨[], item, offset, rest⟩
      else
        (Item.cutAt? rest (offset - item.bits)).map fun cut =>
          { cut with before := item :: cut.before }

/-- A reserved run of `bits` bits, or nothing for no bits. -/
def Item.reservedRun (bits : Nat) : List Item :=
  if bits = 0 then [] else [.reserved { bits }]

/-- The start alignment that a field of the given width asks for. -/
def Field.alignmentFor (bits : Nat) : Nat :=
  if bits = 8 ∨ bits = 16 ∨ bits = 32 then bits
  else if bits = 24 then 8
  else if wordBits < bits ∧ bits % wordBits = 0 then wordBits
  else 1

namespace Blueprint

def new (name : String) : Blueprint := { name }

/-- A blueprint that starts from a frozen layout; new items go behind its last bit. -/
def extend (name : String) (base : Layout) : Blueprint :=
  { name, base := base.slots.map Slot.item, dynamicSize := base.dynamicSize }

def step (blueprint : Blueprint) (step : Step) : Blueprint :=
  { blueprint with steps := blueprint.steps ++ [step] }

def item (blueprint : Blueprint) (item : Item) : Blueprint := blueprint.step (.append item)

def field (blueprint : Blueprint) (field : Field) : Blueprint := blueprint.item (.field field)

def enable (blueprint : Blueprint) (enable : Enable) : Blueprint :=
  blueprint.item (.enable enable)

def reserved (blueprint : Blueprint) (bits : Nat) : Blueprint :=
  blueprint.item (.reserved { bits })

def rebind (blueprint : Blueprint) (position : Position) (field : Field) : Blueprint :=
  blueprint.step (.rebind position field)

/-- Appends an item to placed ones, within the limits of width and total length. -/
def placeItem (placed : List Item) (item : Item) : Except LayoutError (List Item) :=
  if item.bits ≤ item.maxBits ∧ Item.totalBits placed + item.bits ≤ Layout.maxBits then
    .ok (placed ++ [item])
  else .error (.itemWidth item.kind item.bits)

/-- Puts a field in the place of reserved bits; what remains of the run stays reserved, without a
name. -/
def placeRebound (layout : String) (placed : List Item) (position : Position) (field : Field) :
    Except LayoutError (List Item) :=
  match Item.cutAt? placed position.offset with
  | some ⟨before, .reserved run, inner, after⟩ =>
      if run.bits < inner + field.bits then
        .error (.rebindOverflow layout field.name position field.bits)
      else
        .ok (before ++ Item.reservedRun inner ++ [.field field] ++
          Item.reservedRun (run.bits - inner - field.bits) ++ after)
  | _ => .error (.rebindTargetNotFound layout field.name position)

def placeStep (layout : String) (placed : List Item) : Step → Except LayoutError (List Item)
  | .append item => placeItem placed item
  | .rebind position field => placeRebound layout placed position field

def place (blueprint : Blueprint) : Except LayoutError (List Item) :=
  blueprint.steps.foldlM (placeStep blueprint.name) blueprint.base

/-- Checks that every item has bits and that no name occurs twice, `seen` holding the names of the
items before. -/
def checkItems (layout : String) (seen : List String) : List Item → Except LayoutError Unit
  | [] => .ok ()
  | item :: rest =>
      if item.bits = 0 then .error .emptyItem
      else
        match item.name? with
        | none => checkItems layout seen rest
        | some name =>
            if name ∈ seen then .error (.duplicateName layout name)
            else checkItems layout (name :: seen) rest

/-- The alignment warning of a slot, if its field does not start at its natural alignment. -/
def alignmentWarning? (layout : String) (slot : Slot) : Option LayoutWarning := do
  let field ← slot.item.field?
  let alignment := Field.alignmentFor field.bits
  if slot.position.isAligned alignment then none
  else some (.alignment layout field.name slot.position field.bits alignment)

/-- The warnings of a layout: its size first, then its fields in order. -/
def warnings (layout : String) (slots : List Slot) (bits : Nat) : List LayoutWarning :=
  (if bits % wordBits = 0 then [] else [.size layout bits]) ++
    slots.filterMap (alignmentWarning? layout)

/-- Checks, links and lays out placed items. -/
def freeze (name : String) (placed : List Item) (dynamicSize : Bool) :
    Except LayoutError Layout := do
  checkItems name [] placed
  let slots := Linkage.slots (← Linkage.resolve name placed)
  let bits := Item.totalBits placed
  return { name, slots, bits, warnings := warnings name slots bits, dynamicSize }

/-- Lays out a blueprint without regard to warnings. -/
def draft (blueprint : Blueprint) : Except LayoutError Layout := do
  freeze blueprint.name (← blueprint.place) blueprint.dynamicSize

/-- The warning that forbids a layout, for a strict blueprint. -/
def objection? (blueprint : Blueprint) (layout : Layout) : Option LayoutWarning :=
  if blueprint.strict then layout.warnings.head? else none

def build (blueprint : Blueprint) : Except LayoutError Layout := do
  let layout ← blueprint.draft
  match blueprint.objection? layout with
  | some warning => throw (.strict warning)
  | none => return layout

/-- The events of the steps, up to the first one that fails. -/
def stepEvents (layout : String) (placed : List Item) : List Step → List Event
  | [] => []
  | step :: rest =>
      match placeStep layout placed step with
      | .error _ => []
      | .ok next =>
          match step with
          | .append _ => stepEvents layout next rest
          | .rebind position field =>
              .rebinding layout position field.name :: stepEvents layout next rest

/-- The events of a build.  Warnings are reported also when they make a strict build fail. -/
def journal (blueprint : Blueprint) : List Event :=
  stepEvents blueprint.name blueprint.base blueprint.steps ++
    match blueprint.draft with
    | .error _ => []
    | .ok layout =>
        layout.warnings.map .warning ++
          match blueprint.objection? layout with
          | some _ => []
          | none => [.froze layout.name layout.slots.length layout.bits]

end Blueprint

/-- The layout with the reserved bits at a position replaced by a field, under the same name. -/
def Layout.rebind (layout : Layout) (position : Position) (field : Field) : Blueprint :=
  (Blueprint.extend layout.name layout).rebind position field

end RadioPacket
