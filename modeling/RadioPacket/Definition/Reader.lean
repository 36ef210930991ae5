import RadioPacket.Definition.Basic
import RadioPacket.Json.Basic

/-!
# Reading definitions

Keys may come in any order, and unknown ones are ignored.  A missing key has a default or makes the
definition bad; null stands for a missing value only where a value is optional.  A record may also
be written as the list of its values in the order of its keys, with the last ones left out, and
then a tag comes first.

A definition is *inner* when it is a part of one that carries a tag.  Tags and modes of inner
definitions are read a little more freely: a tag may be the number of its alternative, and the
object form of a mode may hold an empty object in place of null.
-/

namespace RadioPacket

/-- The members of a record: those of an object, or the elements of a list under the keys. -/
def Json.record? (keys : List String) : Json → Option (List (String × Json))
  | .object members => some members
  | .array elements =>
      if elements.length ≤ keys.length then some (keys.zip elements) else none
  | _ => none

/-- A member that must be there. -/
def Json.required {α : Type} (members : List (String × Json)) (key : String)
    (read : Json → Option α) : Option α :=
  match Json.member? members key with
  | some value => read value
  | none => none

/-- A member with a default.  A member that is there must be well-formed. -/
def Json.defaulted {α : Type} (members : List (String × Json)) (key : String) (fallback : α)
    (read : Json → Option α) : Option α :=
  match Json.member? members key with
  | some value => read value
  | none => some fallback

/-- A member that may be missing or null. -/
def Json.optional {α : Type} (members : List (String × Json)) (key : String)
    (read : Json → Option α) : Option (Option α) :=
  match Json.member? members key with
  | none => some none
  | some .null => some none
  | some value => (read value).map some

/-- A tag out of a list of alternatives. -/
def Json.tag? (inner : Bool) (alternatives : List String) : Json → Option String
  | .string name => if name ∈ alternatives then some name else none
  | .int index => if inner ∧ 0 ≤ index then alternatives[index.toNat]? else none
  | _ => none

/-- Splits a tagged record into its tag and the rest of it: an object keeps all its members, and a
list gives up its first element. -/
def Json.tagged? (inner : Bool) (key : String) (alternatives : List String) :
    Json → Option (String × Json)
  | .object members => do
      some (← Json.required members key (Json.tag? inner alternatives), .object members)
  | .array (tag :: elements) => do
      some (← Json.tag? inner alternatives tag, .array elements)
  | _ => none

/-- Widths and indices are 64-bit numbers. -/
def Json.size? : Json → Option Nat := Json.nat? 64

/-- Bit numbers and radices are 32-bit numbers. -/
def Json.small? : Json → Option Nat := Json.nat? 32

namespace Mode

/-- The mode of the given name, in exactly this spelling. -/
def ofName? (name : String) : Option Mode := all.find? fun mode => mode.name == name

/-- Reads a mode: its name, or an object that holds nothing under its name. -/
def ofJson? (inner : Bool) : Json → Option Mode
  | .string name => ofName? name
  | .object [(name, .null)] => ofName? name
  | .object [(name, .object [])] => if inner then ofName? name else none
  | _ => none

end Mode

def PositionDef.ofJson? (json : Json) : Option PositionDef := do
  let members ← json.record? ["word", "bit"]
  let word ← Json.required members "word" Json.size?
  let bit ← Json.required members "bit" Json.small?
  some { word, bit }

/-- Reads an initial value.  An integer outside both 64-bit ranges becomes the nearest float. -/
def ValueDef.ofJson? : Json → Option ValueDef
  | .bool value => some (.scalar (.bool value))
  | .int value =>
      if -2 ^ 63 ≤ value ∧ value < 2 ^ 63 then some (.scalar (.signed value))
      else if 0 ≤ value ∧ value < 2 ^ 64 then some (.scalar (.unsigned value.toNat))
      else some (.scalar (.float (.ofInt value)))
  | .float value => some (.scalar (.float value))
  | .string name => some (.symbol name)
  | _ => none

def EnumTable.symbolOfJson? (json : Json) : Option (String × Nat) := do
  let members ← json.record? ["name", "value"]
  let name ← Json.required members "name" Json.string?
  let value ← Json.required members "value" Json.size?
  some (name, value)

/-- Reads all elements of a list. -/
def Json.listOf? {α : Type} (read : Json → Option α) : Json → Option (List α)
  | .array elements => elements.mapM read
  | _ => none

def TypeDef.tags : List String :=
  ["boolean", "integer", "fixed_point", "non_zero_size", "enum", "struct"]

/-- Reads the parameters of a leaf type under its tag. -/
def LeafShape.ofTagged? (tag : String) (body : Json) : Option LeafShape :=
  if tag = "boolean" then do
    let members ← body.record? ["bits"]
    some (.boolean (← Json.defaulted members "bits" 1 Json.size?))
  else if tag = "integer" then do
    let members ← body.record? ["bits", "signed"]
    let bits ← Json.required members "bits" Json.size?
    let signed ← Json.defaulted members "signed" false Json.bool?
    some (.integer bits signed)
  else if tag = "fixed_point" then do
    let members ← body.record? ["bits", "radix", "signed"]
    let bits ← Json.required members "bits" Json.size?
    let radix ← Json.required members "radix" Json.small?
    let signed ← Json.defaulted members "signed" true Json.bool?
    some (.fixedPoint bits radix signed)
  else if tag = "non_zero_size" then do
    let members ← body.record? ["bits"]
    some (.nonZeroSize (← Json.required members "bits" Json.size?))
  else if tag = "enum" then do
    let members ← body.record? ["name", "bits", "symbols"]
    let name ← Json.required members "name" Json.string?
    let bits ← Json.required members "bits" Json.size?
    let symbols ← Json.required members "symbols" (Json.listOf? EnumTable.symbolOfJson?)
    some (.enumeration { name, bits, symbols })
  else none

def Enable.ofJson? (json : Json) : Option Enable := do
  let members ← json.record? ["name", "bits", "field"]
  let name ← Json.required members "name" Json.string?
  let bits ← Json.defaulted members "bits" 1 Json.size?
  let field ← Json.optional members "field" Json.string?
  some { name, bits, field }

def Reserved.ofJson? (json : Json) : Option Reserved := do
  let members ← json.record? ["name", "bits"]
  let name ← Json.optional members "name" Json.string?
  let bits ← Json.required members "bits" Json.size?
  some { name, bits }

def StructDef.keys : List String := ["name", "items", "dynamic_size", "strict"]

def FieldDef.keys : List String :=
  ["name", "kind", "mode", "enabled_by", "editable", "position", "value"]

/-- Reads a structure around its items. -/
def StructDef.around? (json : Json) (items : Option (List ItemDef)) : Option StructDef := do
  let members ← json.record? StructDef.keys
  let name ← Json.required members "name" Json.string?
  let items ← items
  let dynamicSize ← Json.defaulted members "dynamic_size" false Json.bool?
  let strict ← Json.defaulted members "strict" false Json.bool?
  some { name, items, dynamicSize, strict }

/-- Reads a field around its kind. -/
def FieldDef.around? (inner : Bool) (json : Json) (kind : Option TypeDef) : Option FieldDef := do
  let members ← json.record? FieldDef.keys
  let name ← Json.required members "name" Json.string?
  let kind ← kind
  let mode ← Json.optional members "mode" (Mode.ofJson? inner)
  let enabledBy ← Json.optional members "enabled_by" Json.string?
  let editable ← Json.defaulted members "editable" true Json.bool?
  let position ← Json.optional members "position" PositionDef.ofJson?
  let value ← Json.optional members "value" ValueDef.ofJson?
  some { name, kind, mode, enabledBy, editable, position, value }

def ItemDef.tags : List String := ["field", "enable", "reserved"]

/-- Reads an item around the kind that it has if it is a field. -/
def ItemDef.around? (tag : String) (body : Json) (kind : Option TypeDef) : Option ItemDef :=
  if tag = "field" then (FieldDef.around? true body kind).map .field
  else if tag = "enable" then (Enable.ofJson? body).map .enable
  else if tag = "reserved" then (Reserved.ofJson? body).map .reserved
  else none

/-- Reads a type around the items that it has if it is a structure. -/
def TypeDef.around? (tag : String) (body : Json) (items : Option (List ItemDef)) :
    Option TypeDef :=
  if tag = "struct" then (StructDef.around? body items).map .record
  else (LeafShape.ofTagged? tag body).map .leaf

mutual

def TypeDef.ofJson? (inner : Bool) : Json → Option TypeDef
  | .object members => do
      let (tag, body) ← Json.tagged? inner "type" TypeDef.tags (.object members)
      TypeDef.around? tag body (StructDef.itemsUnder? true members)
  | .array (tag :: elements) => do
      let (tag, body) ← Json.tagged? inner "type" TypeDef.tags (.array (tag :: elements))
      TypeDef.around? tag body (StructDef.itemsSecond? true elements)
  | _ => none
termination_by structural json => json

def ItemDef.ofJson? (inner : Bool) : Json → Option ItemDef
  | .object members => do
      let (tag, body) ← Json.tagged? inner "item" ItemDef.tags (.object members)
      ItemDef.around? tag body (FieldDef.kindUnder? true members)
  | .array (tag :: elements) => do
      let (tag, body) ← Json.tagged? inner "item" ItemDef.tags (.array (tag :: elements))
      ItemDef.around? tag body (FieldDef.kindSecond? true elements)
  | _ => none
termination_by structural json => json

def ItemDef.listOfJson? (inner : Bool) : Json → Option (List ItemDef)
  | .array elements => ItemDef.listOf? inner elements
  | _ => none
termination_by structural json => json

def ItemDef.listOf? (inner : Bool) : List Json → Option (List ItemDef)
  | [] => some []
  | json :: rest => do
      let item ← ItemDef.ofJson? inner json
      some (item :: (← ItemDef.listOf? inner rest))
termination_by structural elements => elements

/-- Reads the items of a structure from its members. -/
def StructDef.itemsUnder? (inner : Bool) : List (String × Json) → Option (List ItemDef)
  | [] => none
  | (key, value) :: rest =>
      if key = "items" then ItemDef.listOfJson? inner value else StructDef.itemsUnder? inner rest
termination_by structural members => members

/-- Reads the items of a structure from the list of its values. -/
def StructDef.itemsSecond? (inner : Bool) : List Json → Option (List ItemDef)
  | _ :: value :: _ => ItemDef.listOfJson? inner value
  | _ => none
termination_by structural elements => elements

/-- Reads the kind of a field from its members. -/
def FieldDef.kindUnder? (inner : Bool) : List (String × Json) → Option TypeDef
  | [] => none
  | (key, value) :: rest =>
      if key = "kind" then TypeDef.ofJson? inner value else FieldDef.kindUnder? inner rest
termination_by structural members => members

/-- Reads the kind of a field from the list of its values. -/
def FieldDef.kindSecond? (inner : Bool) : List Json → Option TypeDef
  | _ :: value :: _ => TypeDef.ofJson? inner value
  | _ => none
termination_by structural elements => elements

end

def StructDef.ofJson? (json : Json) : Option StructDef := do
  let members ← json.record? StructDef.keys
  StructDef.around? json (StructDef.itemsUnder? false members)

def FieldDef.ofJson? (json : Json) : Option FieldDef := do
  let members ← json.record? FieldDef.keys
  FieldDef.around? false json (FieldDef.kindUnder? false members)

def CifFieldDef.tags : List String := ["content", "indicator", "reserved"]

def CifFieldDef.ofJson? (json : Json) : Option CifFieldDef := do
  let (tag, body) ← Json.tagged? false "entry" CifFieldDef.tags json
  if tag = "content" then
    let members ← body.record? ["name", "bit", "kind", "mode"]
    let name ← Json.required members "name" Json.string?
    let bit ← Json.required members "bit" Json.small?
    let kind ← Json.required members "kind" (TypeDef.ofJson? true)
    let mode ← Json.optional members "mode" (Mode.ofJson? true)
    some (.content name bit kind mode)
  else if tag = "indicator" then
    let members ← body.record? ["name", "bit"]
    let name ← Json.required members "name" Json.string?
    let bit ← Json.required members "bit" Json.small?
    some (.indicator name bit)
  else
    let members ← body.record? ["bit"]
    some (.reserved (← Json.required members "bit" Json.small?))

def CifDef.ofJson? (json : Json) : Option CifDef := do
  let members ← json.record? ["name", "fields"]
  let name ← Json.required members "name" Json.string?
  let fields ← Json.required members "fields" (Json.listOf? CifFieldDef.ofJson?)
  some { name, fields }

end RadioPacket
