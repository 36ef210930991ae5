import RadioPacket.Layout.Blueprint

/-!
# Placing with a cursor

A second account of how a layout comes about, in which positions are stored and not derived.  Every
item is kept with the position at which it was put, a cursor stands behind the last item, rebinding
looks for the item that covers a position, and freezing walks over the items once more and refuses
one that does not start where the item in front of it ends.
-/

namespace RadioPacket

/-- An item at the position where it was put. -/
structure Placed where
  item : Item
  start : Position

namespace Placed

def finish (placed : Placed) : Position := placed.start + placed.item.bits

/-- The bit at a position belongs to the item. -/
def covers (position : Position) (placed : Placed) : Bool :=
  decide (placed.start.offset ≤ position.offset) &&
    decide (position.offset < placed.finish.offset)

end Placed

/-- Why placing with a cursor gives no layout. -/
inductive CursorError where
  | layout (cause : LayoutError)
  /-- An item does not start where the item in front of it ends. -/
  | discontinuity (layout item : String) (expected found : Position)
  deriving DecidableEq

def CursorError.message : CursorError → String
  | .layout cause => cause.message
  | .discontinuity owner item expected found =>
      "`" ++ owner ++ "." ++ item ++ "` starts at " ++ found.text ++ ", expected " ++ expected.text

/-- Items with their positions, and the position of the next one. -/
structure Cursor where
  placed : List Placed
  position : Position

namespace Cursor

def start : Cursor := ⟨[], .start⟩

/-- The items of a frozen layout; the next one goes behind its last bit. -/
def ofLayout (layout : Layout) : Cursor :=
  ⟨layout.slots.map fun slot => ⟨slot.item, slot.position⟩, ⟨layout.bits⟩⟩

/-- The position behind an item that is put at `position`. -/
def advance (position : Position) (item : Item) : Except LayoutError Position :=
  let next := position + item.bits
  if item.bits ≤ item.maxBits ∧ next.offset ≤ Layout.maxBits then .ok next
  else .error (.itemWidth item.kind item.bits)

/-- Puts an item at the cursor. -/
def append (cursor : Cursor) (item : Item) : Except LayoutError Cursor := do
  let next ← advance cursor.position item
  return ⟨cursor.placed ++ [⟨item, cursor.position⟩], next⟩

/-- Reserved bits from one position to another, or nothing when there are none. -/
def reservedBetween (start finish : Position) : List Placed :=
  if start.offset < finish.offset then [⟨.reserved { bits := finish.distanceFrom start }, start⟩]
  else []

/-- Replaces the reserved item that covers a position by a field. -/
def rebind (layout : String) (cursor : Cursor) (position : Position) (field : Field) :
    Except LayoutError Cursor :=
  let notFound := LayoutError.rebindTargetNotFound layout field.name position
  match cursor.placed.findIdx? (Placed.covers position) with
  | none => .error notFound
  | some index =>
      match cursor.placed[index]? with
      | some ⟨.reserved run, start⟩ =>
          let runEnd := start + run.bits
          let finish := position + field.bits
          if runEnd.offset < finish.offset then
            .error (.rebindOverflow layout field.name position field.bits)
          else
            .ok { cursor with
              placed := cursor.placed.take index ++ reservedBetween start position ++
                [⟨.field field, position⟩] ++ reservedBetween finish runEnd ++
                cursor.placed.drop (index + 1) }
      | _ => .error notFound

def step (layout : String) (cursor : Cursor) : Step → Except LayoutError Cursor
  | .append item => cursor.append item
  | .rebind position field => cursor.rebind layout position field

/-- Walks over the items from `expected` on: every item has bits and starts where the one in front
of it ends, and no name occurs twice.  The answer is the position behind the last item. -/
def replay (layout : String) (expected : Position) (seen : List String) :
    List Placed → Except CursorError Position
  | [] => .ok expected
  | placed :: rest =>
      if placed.item.bits = 0 then .error (.layout .emptyItem)
      else if placed.start ≠ expected then
        .error (.discontinuity layout placed.item.label expected placed.start)
      else
        match placed.item.name? with
        | none => replay layout placed.finish seen rest
        | some name =>
            if name ∈ seen then .error (.layout (.duplicateName layout name))
            else replay layout placed.finish (name :: seen) rest

/-- The slots of placed items whose ties have been resolved. -/
def slots (placed : List Placed) (resolved : List Item) : List Slot :=
  List.zipWith (fun placed item =>
    { item, position := placed.start, link := Linkage.partner? resolved item }) placed resolved

/-- Checks, links and freezes placed items. -/
def freeze (name : String) (placed : List Placed) (dynamicSize : Bool) :
    Except CursorError Layout := do
  let finish ← replay name .start [] placed
  let resolved ← (Linkage.resolve name (placed.map Placed.item)).mapError .layout
  let slots := slots placed resolved
  let bits := finish.offset
  return { name, slots, bits, warnings := Blueprint.warnings name slots bits, dynamicSize }

/-- Carries out the steps of a blueprint from a cursor on, and freezes the result. -/
def build (cursor : Cursor) (blueprint : Blueprint) : Except CursorError Layout := do
  let done ← (blueprint.steps.foldlM (step blueprint.name) cursor).mapError .layout
  let layout ← freeze blueprint.name done.placed blueprint.dynamicSize
  match blueprint.objection? layout with
  | some warning => throw (.layout (.strict warning))
  | none => return layout

end Cursor

end RadioPacket
