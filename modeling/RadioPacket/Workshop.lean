import RadioPacket.Cif.Group
import RadioPacket.Leaf.Table

/-!
# The workshop

Structures are made in a workshop that keeps the types requested so far and a journal of events.
Both outlive a failure: what a failing build has requested and reported stays requested and
reported.
-/

namespace RadioPacket

/-- What is shared by all builds. -/
structure Workshop where
  types : TypeTable
  journal : List Event

/-- Work that may fail and always leaves a workshop. -/
abbrev Build (α : Type) := ExceptT LayoutError (StateM Workshop) α

namespace Workshop

def empty : Workshop := ⟨.empty, []⟩

end Workshop

namespace Build

/-- Adds events to the journal. -/
def report (events : List Event) : Build Unit :=
  modify fun workshop => { workshop with journal := workshop.journal ++ events }

/-- Gives the outcome of a finished computation. -/
def settle {α : Type} : Except LayoutError α → Build α
  | .ok value => pure value
  | .error error => throw error

def leaf (shape : LeafShape) : Build LeafType := do
  let workshop ← get
  let (answer, types) := workshop.types.request shape
  set { workshop with types }
  match answer with
  | .ok interned => return interned.type
  | .error cause => throw (.leaf cause)

def layout (blueprint : Blueprint) : Build Layout := do
  report blueprint.journal
  settle blueprint.build

def group (blueprint : CifBlueprint) : Build CifGroup := do
  if blueprint.needsFlag then
    let _ ← leaf LeafType.flag.shape
  report blueprint.journal
  settle blueprint.build

end Build

end RadioPacket
