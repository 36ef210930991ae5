import RadioPacket.Definition.Basic
import RadioPacket.Json.Basic

/-!
# Writing definitions

The written form of a definition spells every key out, also those that hold a default; what is not
given is null.  The kind of a type, an item or an indicator entry is a tag among its keys.
-/

namespace RadioPacket

namespace Json

def ofNat (value : Nat) : Json := .int value

def ofOption {α : Type} (write : α → Json) : Option α → Json
  | some value => write value
  | none => .null

end Json

def Mode.toJson (mode : Mode) : Json := .string mode.name

def PositionDef.toJson (definition : PositionDef) : Json :=
  .object [("word", .ofNat definition.word), ("bit", .ofNat definition.bit)]

def ValueDef.toJson : ValueDef → Json
  | .scalar (.bool value) => .bool value
  | .scalar (.signed value) => .int value
  | .scalar (.unsigned value) => .ofNat value
  | .scalar (.float value) => .float value
  | .symbol name => .string name

def EnumTable.symbolToJson (entry : String × Nat) : Json :=
  .object [("name", .string entry.1), ("value", .ofNat entry.2)]

def LeafShape.toJson : LeafShape → Json
  | .boolean bits => .object [("type", .string "boolean"), ("bits", .ofNat bits)]
  | .integer bits signed =>
      .object [("type", .string "integer"), ("bits", .ofNat bits), ("signed", .bool signed)]
  | .fixedPoint bits radix signed =>
      .object
        [("type", .string "fixed_point"), ("bits", .ofNat bits), ("radix", .ofNat radix),
          ("signed", .bool signed)]
  | .nonZeroSize bits => .object [("type", .string "non_zero_size"), ("bits", .ofNat bits)]
  | .enumeration table =>
      .object
        [("type", .string "enum"), ("name", .string table.name), ("bits", .ofNat table.bits),
          ("symbols", .array (table.symbols.map EnumTable.symbolToJson))]

def Enable.toMembers (enable : Enable) : List (String × Json) :=
  [("name", .string enable.name), ("bits", .ofNat enable.bits),
    ("field", .ofOption .string enable.field)]

def Reserved.toMembers (run : Reserved) : List (String × Json) :=
  [("name", .ofOption .string run.name), ("bits", .ofNat run.bits)]

mutual

def TypeDef.toJson : TypeDef → Json
  | .leaf shape => shape.toJson
  | .record definition => .object (("type", .string "struct") :: definition.toMembers)
termination_by structural definition => definition

def FieldDef.toMembers : FieldDef → List (String × Json)
  | ⟨name, kind, mode, enabledBy, editable, position, value⟩ =>
      [("name", .string name), ("kind", kind.toJson), ("mode", .ofOption Mode.toJson mode),
        ("enabled_by", .ofOption .string enabledBy), ("editable", .bool editable),
        ("position", .ofOption PositionDef.toJson position),
        ("value", .ofOption ValueDef.toJson value)]
termination_by structural definition => definition

def ItemDef.toJson : ItemDef → Json
  | .field definition => .object (("item", .string "field") :: definition.toMembers)
  | .enable enable => .object (("item", .string "enable") :: enable.toMembers)
  | .reserved run => .object (("item", .string "reserved") :: run.toMembers)
termination_by structural item => item

def ItemDef.listToJson : List ItemDef → List Json
  | [] => []
  | item :: items => item.toJson :: ItemDef.listToJson items
termination_by structural items => items

def StructDef.toMembers : StructDef → List (String × Json)
  | ⟨name, items, dynamicSize, strict⟩ =>
      [("name", .string name), ("items", .array (ItemDef.listToJson items)),
        ("dynamic_size", .bool dynamicSize), ("strict", .bool strict)]
termination_by structural definition => definition

end

def FieldDef.toJson (definition : FieldDef) : Json := .object definition.toMembers

def StructDef.toJson (definition : StructDef) : Json := .object definition.toMembers

def CifFieldDef.toJson : CifFieldDef → Json
  | .content name bit kind mode =>
      .object
        [("entry", .string "content"), ("name", .string name), ("bit", .ofNat bit),
          ("kind", kind.toJson), ("mode", .ofOption Mode.toJson mode)]
  | .indicator name bit =>
      .object [("entry", .string "indicator"), ("name", .string name), ("bit", .ofNat bit)]
  | .reserved bit => .object [("entry", .string "reserved"), ("bit", .ofNat bit)]

def CifDef.toJson (definition : CifDef) : Json :=
  .object
    [("name", .string definition.name),
      ("fields", .array (definition.fields.map CifFieldDef.toJson))]

end RadioPacket
