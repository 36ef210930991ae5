import RadioPacket.Cif.Group

/-!
# Building a group with a check of its enables

A second account of how a group is built.  It takes the place of each enable from the finished
indicator word, compares it with the bit of the payload field, and refuses a group where the two
differ.
-/

namespace RadioPacket

/-- Why a group is not built when the places of its enables are checked. -/
inductive CifError where
  | layout (cause : LayoutError)
  /-- An enable does not stand at the bit of its payload field. -/
  | bitMismatch (group field : String) (bit : Nat) (position : Position)
  deriving DecidableEq

def CifError.message : CifError → String
  | .layout cause => cause.message
  | .bitMismatch group field bit position =>
      "`" ++ group ++ "." ++ field ++ "` has CIF bit " ++ toString bit ++
        " but its enable sits at " ++ position.text

namespace CifBlueprint

/-- A payload field whose enable stands at the field's bit in word 0. -/
def checkedContentOf (group : String) (enables : Layout) (entry : CifEntry) (type : FieldType) :
    Except CifError CifContent := do
  let content ← (contentOf enables entry type).mapError .layout
  if content.enablePosition.word ≠ 0 ∨ content.enablePosition.bit ≠ entry.bit then
    throw (.bitMismatch group entry.name entry.bit content.enablePosition)
  else return content

/-- Builds the indicator word and the payload list of a group, checking each enable. -/
def checkedBuild (blueprint : CifBlueprint) : Except CifError CifGroup := do
  (checkEntries blueprint.name [] blueprint.entries).mapError .layout
  let enables ← blueprint.word.build.mapError .layout
  let content ← blueprint.payload.mapM fun (entry, type) =>
    checkedContentOf blueprint.name enables entry type
  return {
    name := blueprint.name
    enables
    content
    warnings := content.filterMap (sizeWarning? blueprint.name) }

end CifBlueprint

end RadioPacket
