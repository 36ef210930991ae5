import RadioPacket.Container.Operation
import RadioPacket.Definition.Basic

/-!
# Instances of definitions

An instance is a container that holds the initial values of a definition.  A disabled field that is
given a value becomes required, and a nested structure that holds an initial value anywhere becomes
present.
-/

namespace RadioPacket

mutual

/-- The structure type holds an initial value at some depth. -/
def TypeDef.isInitialised : TypeDef → Bool
  | .leaf _ => false
  | .record ⟨_, items, _, _⟩ => ItemDef.anyInitialised items
termination_by structural definition => definition

/-- Some item holds an initial value at some depth. -/
def ItemDef.anyInitialised : List ItemDef → Bool
  | [] => false
  | .field ⟨_, kind, _, _, _, _, value⟩ :: items =>
      value.isSome || kind.isInitialised || ItemDef.anyInitialised items
  | _ :: items => ItemDef.anyInitialised items
termination_by structural items => items

end

namespace Container

/-- A change of values as a step of configuration. -/
def configure (outcome : Except ValueError Container) : Except OperationError Container :=
  outcome.mapError .value

/-- A change of modes as a step of configuration. -/
def configureMode {α : Type} (outcome : Except ModeError α) : Except OperationError α :=
  outcome.mapError .mode

/-- Gives a field its initial value. -/
def initialise (c : Container) (name : String) (value : ValueDef) :
    Except OperationError Container := do
  let mode ← configureMode (c.mode name)
  let usable ←
    if mode.whenAssigned = mode then pure c
    else configureMode (c.changeMode name mode.whenAssigned)
  match value with
  | .scalar scalar => configure (usable.assign name (.scalar scalar))
  | .symbol symbol => configure (usable.assignSymbol name symbol)

/-- Gives a field its initial value if it has one. -/
def initialise? (c : Container) (name : String) (value : Option ValueDef) :
    Except OperationError Container :=
  match value with
  | some value => c.initialise name value
  | none => .ok c

end Container

mutual

/-- Gives the fields of a nested structure their initial values. -/
def TypeDef.fill : TypeDef → Container → Except OperationError Container
  | .leaf _, c => .ok c
  | .record ⟨_, items, _, _⟩, c => ItemDef.fillAll items c
termination_by structural definition => definition

/-- Gives fields their initial values in order, those inside a nested structure before its own. -/
def ItemDef.fillAll : List ItemDef → Container → Except OperationError Container
  | [], c => .ok c
  | .field ⟨name, kind, _, _, _, _, value⟩ :: items, c => do
      let entered ←
        if kind.isInitialised then do
          let (marked, index, inner) ← (c.enter name).mapError .value
          pure (marked.replace index (← kind.fill inner))
        else pure c
      ItemDef.fillAll items (← entered.initialise? name value)
  | _ :: items, c => ItemDef.fillAll items c
termination_by structural items => items

end

/-- A container of a layout with the initial values of a definition. -/
def StructDef.instantiate (definition : StructDef) (layout : Layout) :
    Except OperationError Container :=
  ItemDef.fillAll definition.items (Container.new layout)

end RadioPacket
