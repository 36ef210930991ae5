import RadioPacket.Definition.Basic
import RadioPacket.Workshop

/-!
# Compiling definitions

A definition is compiled in a workshop: the types of its fields are requested in order, nested
structures are laid out on the way, and at last the structure itself is.
-/

namespace RadioPacket

/-- The field that a definition declares, with a type already made. -/
def FieldDef.fieldOf
    (name : String) (type : FieldType)
    (mode : Option Mode) (enabledBy : Option String) (editable : Bool) :
    Field :=
  let plain : Field := { name, type, editable }
  let gated := match enabledBy with
    | some enable => plain.gatedBy enable
    | none => plain
  match mode with
  | some declared => { gated with mode := declared }
  | none => gated

/-- The step that puts a field into its structure. -/
def FieldDef.stepOf (position : Option PositionDef) (field : Field) : Step :=
  match position with
  | some place => .rebind place.position field
  | none => .append (.field field)

mutual

def TypeDef.compile : TypeDef → Build FieldType
  | .leaf shape => do return .leaf (← Build.leaf shape)
  | .record ⟨name, items, dynamicSize, strict⟩ => do
      let steps ← ItemDef.compileAll items
      return .record (← Build.layout { name, steps, strict, dynamicSize })
termination_by structural definition => definition

/-- The steps of items, in order. -/
def ItemDef.compileAll : List ItemDef → Build (List Step)
  | [] => return []
  | .field ⟨name, kind, mode, enabledBy, editable, position, _⟩ :: items => do
      let type ← kind.compile
      let step := FieldDef.stepOf position (FieldDef.fieldOf name type mode enabledBy editable)
      return step :: (← ItemDef.compileAll items)
  | .enable enable :: items => do
      return .append (.enable enable) :: (← ItemDef.compileAll items)
  | .reserved run :: items => do
      return .append (.reserved run) :: (← ItemDef.compileAll items)
termination_by structural items => items

end

/-- The blueprint that a structure starts from. -/
def StructDef.start (definition : StructDef) : Option Layout → Blueprint
  | some base => Blueprint.extend definition.name base
  | none => Blueprint.new definition.name

/-- Lays out a structure, on top of a base if there is one. -/
def StructDef.compile (definition : StructDef) (base : Option Layout) : Build Layout := do
  let steps ← ItemDef.compileAll definition.items
  let start := definition.start base
  Build.layout
    { start with
      steps
      strict := definition.strict
      dynamicSize := start.dynamicSize || definition.dynamicSize }

def CifFieldDef.compile : CifFieldDef → Build CifEntry
  | .content name bit kind mode => do
      let entry := CifEntry.content name bit (← kind.compile)
      match mode with
      | some declared => return { entry with mode := declared }
      | none => return entry
  | .indicator name bit => return .indicator name bit
  | .reserved bit => return .reserved bit

def CifDef.compile (definition : CifDef) : Build CifGroup := do
  let entries ← definition.fields.mapM CifFieldDef.compile
  Build.group { name := definition.name, entries }

end RadioPacket
