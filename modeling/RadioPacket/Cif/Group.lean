import RadioPacket.Layout.Blueprint
import RadioPacket.Layout.Equality

/-!
# Indicator field groups

A context indicator field group (CIF) pairs a word of 32 indicator bits with the payload fields
that they announce.  A group is declared bit by bit.  The word is laid out from bit 31 down: an
enable for each payload field, a flag for each plain indicator, and reserved runs for all other
bits.  The payload follows the word in the same order.
-/

namespace RadioPacket

/-- What an indicator bit stands for. -/
inductive CifKind where
  /-- Announces a payload field of the given type. -/
  | content (type : FieldType)
  /-- A flag without payload. -/
  | indicator
  | reserved

/-- Declaration of one indicator bit. -/
structure CifEntry where
  name : String
  bit : Nat
  kind : CifKind
  mode : Mode

namespace CifEntry

def content (name : String) (bit : Nat) (type : FieldType) : CifEntry :=
  { name, bit, kind := .content type, mode := .optional }

def indicator (name : String) (bit : Nat) : CifEntry :=
  { name, bit, kind := .indicator, mode := .optional }

def reserved (bit : Nat) : CifEntry :=
  { name := "reserved_" ++ toString bit, bit, kind := .reserved, mode := .disabled }

def isIndicator (entry : CifEntry) : Bool :=
  match entry.kind with
  | .indicator => true
  | _ => false

end CifEntry

/-- A payload field of a group. -/
structure CifContent where
  field : Field
  /-- Index of the field's enable in the indicator word. -/
  enable : Nat
  /-- Place of the enable in the indicator word. -/
  enablePosition : Position
  deriving DecidableEq

namespace CifContent

def name (content : CifContent) : String := content.field.name

def bit (content : CifContent) : Nat := content.field.indicatorBit.getD 0

def type (content : CifContent) : FieldType := content.field.type

def mode (content : CifContent) : Mode := content.field.mode

end CifContent

/-- A complete group: the indicator word, and the payload fields from the highest bit down. -/
structure CifGroup where
  name : String
  enables : Layout
  content : List CifContent
  warnings : List LayoutWarning
  deriving DecidableEq

namespace CifGroup

def find? (group : CifGroup) (name : String) : Option CifContent :=
  group.content.find? fun content => content.name == name

def modes (group : CifGroup) : List Mode := group.content.map CifContent.mode

/-- Width of the payload when every field is present. -/
def maxPayloadBits (group : CifGroup) : Nat :=
  group.content.foldr (fun content total => content.type.bits + total) 0

end CifGroup

structure CifBlueprint where
  name : String
  entries : List CifEntry := []

/-- The type of a plain indicator. -/
def LeafType.flag : LeafType := ⟨.boolean 1, rfl⟩

namespace CifBlueprint

/-- Checks that every bit number is in the word and used once, `seen` holding the entries
before. -/
def checkEntries (group : String) (seen : List CifEntry) :
    List CifEntry → Except LayoutError Unit
  | [] => .ok ()
  | entry :: rest =>
      if wordBits ≤ entry.bit then .error (.indicatorBitOutOfRange group entry.name entry.bit)
      else
        match seen.find? fun first => first.bit == entry.bit with
        | some first => .error (.indicatorBitCollision group entry.bit first.name entry.name)
        | none => checkEntries group (seen ++ [entry]) rest

def entryAt? (blueprint : CifBlueprint) (bit : Nat) : Option CifEntry :=
  blueprint.entries.find? fun entry => entry.bit == bit

/-- The item of a bit in the indicator word, `none` for a bit that is always zero.  The enable of a
payload field names that field, which lives outside the word. -/
def wordItem? (blueprint : CifBlueprint) (bit : Nat) : Option Item := do
  let entry ← blueprint.entryAt? bit
  match entry.kind with
  | .content _ => some (.enable { name := entry.name, field := some entry.name })
  | .indicator => some (.field { name := entry.name, type := .leaf .flag, mode := entry.mode })
  | .reserved => none

/-- The items of the bits below `bit`, behind a run of `run` zero bits.  Neighbouring zero bits
share one run. -/
def wordItems (blueprint : CifBlueprint) : (bit run : Nat) → List Item
  | 0, run => Item.reservedRun run
  | bit + 1, run =>
      match blueprint.wordItem? bit with
      | none => blueprint.wordItems bit (run + 1)
      | some item => Item.reservedRun run ++ item :: blueprint.wordItems bit 0

def word (blueprint : CifBlueprint) : Blueprint :=
  { name := blueprint.name ++ "_enables"
    steps := (blueprint.wordItems wordBits 0).map .append }

/-- The payload entries with their types, from the highest bit down. -/
def payload (blueprint : CifBlueprint) : List (CifEntry × FieldType) :=
  (List.range wordBits).reverse.filterMap fun bit => do
    let entry ← blueprint.entryAt? bit
    match entry.kind with
    | .content type => some (entry, type)
    | _ => none

/-- A payload field with its enable in the indicator word. -/
def contentOf (enables : Layout) (entry : CifEntry) (type : FieldType) :
    Except LayoutError CifContent :=
  match enables.index? entry.name, enables.find? entry.name with
  | some enable, some ⟨.enable _, position, _⟩ =>
      .ok
        { field := { name := entry.name, type, mode := entry.mode, indicatorBit := some entry.bit }
          enable
          enablePosition := position }
  | _, _ => .error (.unknownEnable enables.name entry.name entry.name)

/-- The warning of a payload field that does not fill whole words. -/
def sizeWarning? (group : String) (content : CifContent) : Option LayoutWarning :=
  if content.type.bits % wordBits = 0 then none
  else some (.contentSize group content.name content.type.bits)

/-- Builds the indicator word and the payload list of a group. -/
def build (blueprint : CifBlueprint) : Except LayoutError CifGroup := do
  checkEntries blueprint.name [] blueprint.entries
  let enables ← blueprint.word.build
  let content ← blueprint.payload.mapM fun (entry, type) => contentOf enables entry type
  return {
    name := blueprint.name
    enables
    content
    warnings := content.filterMap (sizeWarning? blueprint.name) }

/-- The entries use legal bit numbers, each once. -/
def isSound (blueprint : CifBlueprint) : Bool :=
  match checkEntries blueprint.name [] blueprint.entries with
  | .ok _ => true
  | .error _ => false

/-- The build of the group needs the type of a plain indicator. -/
def needsFlag (blueprint : CifBlueprint) : Bool :=
  blueprint.isSound && blueprint.entries.any CifEntry.isIndicator

def journal (blueprint : CifBlueprint) : List Event :=
  (if blueprint.isSound then blueprint.word.journal else []) ++
    match blueprint.build with
    | .error _ => []
    | .ok group =>
        group.warnings.map .warning ++ [.builtGroup group.name group.content.length]

end CifBlueprint

end RadioPacket
