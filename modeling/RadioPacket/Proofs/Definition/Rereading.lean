import RadioPacket.Definition.Compile
import RadioPacket.Definition.Instance
import RadioPacket.Definition.Writer
import RadioPacket.Proofs.Definition.Readable

/-!
# Definitions survive writing

The written form of a definition has every key, a fresh tag in front and null for what is not given,
so no default and no other alternative is ever tried on it.  A definition within the bounds of what
is read therefore comes back from its written form, and these are exactly the definitions that a
value can give.  The recursion follows the definitions.
-/

namespace RadioPacket

/-! ## Writers and readers -/

namespace Json

/-- Every value with the property comes back from its written form. -/
def Restores {α : Type} (read : Json → Option α) (write : α → Json) (property : α → Prop) : Prop :=
  ∀ ⦃value⦄, property value → read (write value) = some value

variable {α : Type} {read : Json → Option α} {write : α → Json} {property : α → Prop}
  {members : List (String × Json)} {key tag : String}

theorem required_of_member? {json : Json} (h : member? members key = some json) :
    required members key read = read json := by
  simp [required, h]

theorem defaulted_of_member? {json : Json} {fallback : α} (h : member? members key = some json) :
    defaulted members key fallback read = read json := by
  simp [defaulted, h]

/-- Reads a value that may be null. -/
def nullable? {α : Type} (read : Json → Option α) : Json → Option (Option α)
  | .null => some none
  | json => (read json).map some

theorem nullable?_of_ne_null {json : Json} (h : json ≠ .null) :
    nullable? read json = (read json).map some := by
  cases json with
  | null => exact absurd rfl h
  | bool _ => rfl
  | int _ => rfl
  | float _ => rfl
  | string _ => rfl
  | array _ => rfl
  | object _ => rfl

theorem optional_of_member? {json : Json} (h : member? members key = some json) :
    optional members key read = nullable? read json := by
  cases json <;> simp [optional, h, nullable?]

/-- The members hold what was written under the keys. -/
def Holds (keys : List String) (members written : List (String × Json)) : Prop :=
  ∀ key ∈ keys, member? members key = member? written key

theorem Holds.rfl {keys : List String} : Holds keys members members := fun _ _ => .refl _

theorem Holds.tagged {keys : List String} {json : Json} (h : tag ∉ keys) :
    Holds keys ((tag, json) :: members) members := by
  intro key hkey
  have hne : (key == tag) = false := beq_eq_false_iff_ne.mpr fun heq => h (heq ▸ hkey)
  simp [member?, List.lookup_cons, hne]

namespace Restores

theorem nullable (h : Restores read write property) (hnull : ∀ value, write value ≠ .null) :
    Restores (nullable? read) (ofOption write) fun held => ∀ value ∈ held, property value := by
  intro held hheld
  cases held with
  | none => rfl
  | some value =>
    rw [ofOption, nullable?_of_ne_null (hnull value), h (hheld value rfl), Option.map_some]

theorem mapM (h : Restores read write property) :
    ∀ {values : List α}, (∀ value ∈ values, property value) →
      (values.map write).mapM read = some values
  | [], _ => rfl
  | value :: rest, hvalues => by
    obtain ⟨hvalue, hrest⟩ := List.forall_mem_cons.mp hvalues
    simp [h hvalue, mapM h hrest]

theorem listOf (h : Restores read write property) {values : List α}
    (hvalues : ∀ value ∈ values, property value) :
    listOf? read (.array (values.map write)) = some values :=
  h.mapM hvalues

end Restores

theorem nat?_ofNat (bits : Nat) : Restores (nat? bits) ofNat (· < 2 ^ bits) :=
  fun _ h => nat?_eq_some.mpr ⟨rfl, h⟩

theorem size?_ofNat : Restores size? ofNat (· < 2 ^ 64) := fun _ h => nat?_ofNat 64 h

theorem small?_ofNat : Restores small? ofNat (· < 2 ^ 32) := fun _ h => nat?_ofNat 32 h

theorem nullable?_ofOption_string (held : Option String) :
    nullable? string? (ofOption .string held) = some held := by
  cases held <;> rfl

theorem tagged?_object {inner : Bool} {alternatives : List String} (h : tag ∈ alternatives) :
    tagged? inner key alternatives (.object ((key, .string tag) :: members)) =
      some (tag, .object ((key, .string tag) :: members)) := by
  simp [tagged?, required, member?, tag?, h]

end Json

/-! ## Definitions without parts of their own kind -/

theorem Mode.ofJson?_toJson (inner : Bool) :
    Json.Restores (ofJson? inner) toJson fun _ => True := by
  rintro mode -
  cases mode <;> rfl

theorem Mode.nullable?_ofOption (inner : Bool) (held : Option Mode) :
    Json.nullable? (ofJson? inner) (.ofOption toJson held) = some held :=
  (ofJson?_toJson inner).nullable nofun fun _ _ => trivial

theorem PositionDef.ofJson?_object {word bit : Nat} {wordJson bitJson : Json}
    (hword : Json.size? wordJson = some word) (hbit : Json.small? bitJson = some bit) :
    ofJson? (.object [("word", wordJson), ("bit", bitJson)]) = some ⟨word, bit⟩ := by
  simp [ofJson?, Json.record?, Json.required, Json.member?, List.lookup_cons, hword, hbit]

theorem PositionDef.ofJson?_toJson : Json.Restores ofJson? toJson Readable :=
  fun _ h => ofJson?_object (Json.size?_ofNat h.1) (Json.small?_ofNat h.2)

theorem ValueDef.ofJson?_toJson : Json.Restores ofJson? toJson Readable := by
  intro definition h
  cases definition with
  | symbol _ => rfl
  | scalar value =>
    cases value with
    | bool _ => rfl
    | float _ => rfl
    | signed value =>
      simp only [Readable] at h
      simp only [ofJson?, toJson, if_pos h]
    | unsigned value =>
      simp only [Readable] at h
      have hsigned : ¬ (-2 ^ 63 ≤ (value : Int) ∧ (value : Int) < 2 ^ 63) := by omega
      have hunsigned : 0 ≤ (value : Int) ∧ (value : Int) < 2 ^ 64 := by omega
      simp only [ofJson?, toJson, Json.ofNat, if_neg hsigned, if_pos hunsigned, Int.toNat_natCast]

theorem ValueDef.toJson_ne_null (definition : ValueDef) : definition.toJson ≠ .null := by
  cases definition with
  | symbol _ => nofun
  | scalar value => cases value <;> nofun

theorem EnumTable.symbolOfJson?_object {name : String} {value : Nat} {json : Json}
    (hvalue : Json.size? json = some value) :
    symbolOfJson? (.object [("name", .string name), ("value", json)]) = some (name, value) := by
  simp [symbolOfJson?, Json.record?, Json.required, Json.member?, List.lookup_cons, Json.string?,
    hvalue]

theorem EnumTable.symbolOfJson?_symbolToJson :
    Json.Restores symbolOfJson? symbolToJson fun symbol => symbol.2 < 2 ^ 64 :=
  fun _ h => symbolOfJson?_object (Json.size?_ofNat h)

namespace LeafShape

/-- The tag that a shape is written with. -/
def tag : LeafShape → String
  | .boolean _ => "boolean"
  | .integer _ _ => "integer"
  | .fixedPoint _ _ _ => "fixed_point"
  | .nonZeroSize _ => "non_zero_size"
  | .enumeration _ => "enum"

section Tagged

variable {bits radix : Nat} {signed : Bool} {name : String} {symbols : List (String × Nat)}
  {tag bitsJson radixJson symbolsJson : Json}

theorem ofTagged?_boolean (hbits : Json.size? bitsJson = some bits) :
    ofTagged? "boolean" (.object [("type", tag), ("bits", bitsJson)]) = some (.boolean bits) := by
  simp [ofTagged?, Json.record?, Json.defaulted, Json.member?, List.lookup_cons, hbits]

theorem ofTagged?_integer (hbits : Json.size? bitsJson = some bits) :
    ofTagged? "integer" (.object [("type", tag), ("bits", bitsJson), ("signed", .bool signed)]) =
      some (.integer bits signed) := by
  simp [ofTagged?, Json.record?, Json.required, Json.defaulted, Json.member?, List.lookup_cons,
    Json.bool?, hbits]

theorem ofTagged?_fixedPoint (hbits : Json.size? bitsJson = some bits)
    (hradix : Json.small? radixJson = some radix) :
    ofTagged? "fixed_point"
        (.object
          [("type", tag), ("bits", bitsJson), ("radix", radixJson), ("signed", .bool signed)]) =
      some (.fixedPoint bits radix signed) := by
  simp [ofTagged?, Json.record?, Json.required, Json.defaulted, Json.member?, List.lookup_cons,
    Json.bool?, hbits, hradix]

theorem ofTagged?_nonZeroSize (hbits : Json.size? bitsJson = some bits) :
    ofTagged? "non_zero_size" (.object [("type", tag), ("bits", bitsJson)]) =
      some (.nonZeroSize bits) := by
  simp [ofTagged?, Json.record?, Json.required, Json.member?, List.lookup_cons, hbits]

theorem ofTagged?_enumeration (hbits : Json.size? bitsJson = some bits)
    (hsymbols : Json.listOf? EnumTable.symbolOfJson? symbolsJson = some symbols) :
    ofTagged? "enum"
        (.object
          [("type", tag), ("name", .string name), ("bits", bitsJson), ("symbols", symbolsJson)]) =
      some (.enumeration { name, bits, symbols }) := by
  simp [ofTagged?, Json.record?, Json.required, Json.member?, List.lookup_cons, Json.string?,
    hbits, hsymbols]

end Tagged

theorem ofTagged?_toJson {shape : LeafShape} (h : shape.Readable) :
    ofTagged? shape.tag shape.toJson = some shape := by
  cases shape with
  | boolean bits => exact ofTagged?_boolean (Json.size?_ofNat h)
  | integer bits signed => exact ofTagged?_integer (Json.size?_ofNat h)
  | fixedPoint bits radix signed =>
    exact ofTagged?_fixedPoint (Json.size?_ofNat h.1) (Json.small?_ofNat h.2)
  | nonZeroSize bits => exact ofTagged?_nonZeroSize (Json.size?_ofNat h)
  | enumeration table =>
    exact ofTagged?_enumeration (Json.size?_ofNat h.1)
      (EnumTable.symbolOfJson?_symbolToJson.listOf h.2)

end LeafShape

section Keys

variable {members : List (String × Json)}

theorem Enable.ofJson?_of_holds {enable : Enable} (h : enable.Readable)
    (hmembers : Json.Holds ["name", "bits", "field"] members enable.toMembers) :
    ofJson? (.object members) = some enable := by
  have hname := hmembers "name" (by decide)
  have hbits := hmembers "bits" (by decide)
  have hsize : Json.size? (.ofNat enable.bits) = some enable.bits := Json.size?_ofNat h
  have hfield := (Json.optional_of_member? (hmembers "field" (by decide))).trans
    (Json.nullable?_ofOption_string enable.field)
  simp [ofJson?, Json.record?, Json.required_of_member? hname, Json.defaulted_of_member? hbits,
    hsize, hfield, Json.string?]

theorem Reserved.ofJson?_of_holds {run : Reserved} (h : run.Readable)
    (hmembers : Json.Holds ["name", "bits"] members run.toMembers) :
    ofJson? (.object members) = some run := by
  have hbits := hmembers "bits" (by decide)
  have hsize : Json.size? (.ofNat run.bits) = some run.bits := Json.size?_ofNat h
  have hname := (Json.optional_of_member? (hmembers "name" (by decide))).trans
    (Json.nullable?_ofOption_string run.name)
  simp [ofJson?, Json.record?, Json.required_of_member? hbits, hsize, hname]

theorem StructDef.around?_of_holds {definition : StructDef}
    (hmembers : Json.Holds keys members definition.toMembers) :
    around? (.object members) (some definition.items) = some definition := by
  cases definition with
  | mk name items dynamicSize strict =>
    have hname := hmembers "name" (by decide)
    have hdynamic := hmembers "dynamic_size" (by decide)
    have hstrict := hmembers "strict" (by decide)
    simp [around?, Json.record?, Json.required_of_member? hname,
      Json.defaulted_of_member? hdynamic, Json.defaulted_of_member? hstrict, Json.string?,
      Json.bool?]

theorem FieldDef.around?_of_holds {definition : FieldDef} {inner : Bool}
    (h : definition.Readable) (hmembers : Json.Holds keys members definition.toMembers) :
    around? inner (.object members) (some definition.kind) = some definition := by
  cases definition with
  | mk name kind mode enabledBy editable position value =>
    obtain ⟨_, hposition, hvalue⟩ := h
    have hname := hmembers "name" (by decide)
    have heditable := hmembers "editable" (by decide)
    have hmode := (Json.optional_of_member? (hmembers "mode" (by decide))).trans
      (Mode.nullable?_ofOption inner mode)
    have henabled := (Json.optional_of_member? (hmembers "enabled_by" (by decide))).trans
      (Json.nullable?_ofOption_string enabledBy)
    replace hposition := (Json.optional_of_member? (hmembers "position" (by decide))).trans
      (PositionDef.ofJson?_toJson.nullable nofun hposition)
    replace hvalue := (Json.optional_of_member? (hmembers "value" (by decide))).trans
      (ValueDef.ofJson?_toJson.nullable ValueDef.toJson_ne_null hvalue)
    simp [around?, Json.record?, Json.required_of_member? hname,
      Json.defaulted_of_member? heditable, hmode, henabled, hposition, hvalue, Json.string?,
      Json.bool?]

theorem StructDef.itemsUnder?_eq_bind (inner : Bool) :
    itemsUnder? inner members =
      (Json.member? members "items").bind (ItemDef.listOfJson? inner) := by
  induction members with
  | nil => rfl
  | cons member rest ih =>
    obtain ⟨key, value⟩ := member
    by_cases hkey : key = "items"
    · simp [itemsUnder?, Json.member?, hkey]
    · have hne : ("items" == key) = false := beq_eq_false_iff_ne.mpr (Ne.symm hkey)
      simpa [itemsUnder?, Json.member?, List.lookup_cons, hkey, hne] using ih

theorem FieldDef.kindUnder?_eq_bind (inner : Bool) :
    kindUnder? inner members = (Json.member? members "kind").bind (TypeDef.ofJson? inner) := by
  induction members with
  | nil => rfl
  | cons member rest ih =>
    obtain ⟨key, value⟩ := member
    by_cases hkey : key = "kind"
    · simp [kindUnder?, Json.member?, hkey]
    · have hne : ("kind" == key) = false := beq_eq_false_iff_ne.mpr (Ne.symm hkey)
      simpa [kindUnder?, Json.member?, List.lookup_cons, hkey, hne] using ih

theorem StructDef.itemsUnder?_of_holds {definition : StructDef} {inner : Bool}
    (hmembers : Json.Holds keys members definition.toMembers)
    (hitems : ItemDef.listOf? inner (ItemDef.listToJson definition.items) =
      some definition.items) :
    itemsUnder? inner members = some definition.items := by
  cases definition with
  | mk name items dynamicSize strict =>
    have hmember : Json.member? members "items" = some (.array (ItemDef.listToJson items)) :=
      hmembers "items" (by decide)
    rw [itemsUnder?_eq_bind, hmember, Option.bind_some, ItemDef.listOfJson?, hitems]

theorem FieldDef.kindUnder?_of_holds {definition : FieldDef} {inner : Bool}
    (hmembers : Json.Holds keys members definition.toMembers)
    (hkind : TypeDef.ofJson? inner definition.kind.toJson = some definition.kind) :
    kindUnder? inner members = some definition.kind := by
  cases definition with
  | mk name kind mode enabledBy editable position value =>
    have hmember : Json.member? members "kind" = some kind.toJson := hmembers "kind" (by decide)
    rw [kindUnder?_eq_bind, hmember, Option.bind_some, hkind]

end Keys

/-! ## Definitions with parts of their own kind -/

theorem TypeDef.ofJson?_leaf (inner : Bool) {shape : LeafShape} (h : shape.Readable) :
    TypeDef.ofJson? inner shape.toJson = some (.leaf shape) := by
  have htag : shape.tag ∈ TypeDef.tags := by cases shape <;> simp [LeafShape.tag, tags]
  have hleaf : shape.tag ≠ "struct" := by cases shape <;> simp [LeafShape.tag]
  obtain ⟨rest, hrest⟩ : ∃ rest, shape.toJson = .object (("type", .string shape.tag) :: rest) := by
    cases shape <;> exact ⟨_, rfl⟩
  rw [hrest, ofJson?, Json.tagged?_object htag, ← hrest]
  simp [around?, hleaf, LeafShape.ofTagged?_toJson h]

theorem TypeDef.ofJson?_record (inner : Bool) {definition : StructDef}
    (hitems : ItemDef.listOf? true (ItemDef.listToJson definition.items) =
      some definition.items) :
    TypeDef.ofJson? inner (.object (("type", .string "struct") :: definition.toMembers)) =
      some (.record definition) := by
  have hholds : Json.Holds StructDef.keys (("type", .string "struct") :: definition.toMembers)
      definition.toMembers := .tagged (by decide)
  rw [ofJson?, Json.tagged?_object (by decide), StructDef.itemsUnder?_of_holds hholds hitems]
  simp [around?, StructDef.around?_of_holds hholds]

section Tags

variable {tag : String} {members : List (String × Json)} {body : Json} {kind : Option TypeDef}

theorem ItemDef.ofJson?_tagged (inner : Bool) (htag : tag ∈ tags) :
    ofJson? inner (.object (("item", .string tag) :: members)) =
      around? tag (.object (("item", .string tag) :: members))
        (FieldDef.kindUnder? true (("item", .string tag) :: members)) := by
  rw [ofJson?, Json.tagged?_object htag, Option.bind_eq_bind, Option.bind_some]

theorem ItemDef.around?_field :
    around? "field" body kind = (FieldDef.around? true body kind).map .field := by
  simp [around?]

theorem ItemDef.around?_enable :
    around? "enable" body kind = (Enable.ofJson? body).map .enable := by
  simp [around?]

theorem ItemDef.around?_reserved :
    around? "reserved" body kind = (Reserved.ofJson? body).map .reserved := by
  simp [around?]

end Tags

theorem ItemDef.ofJson?_field (inner : Bool) {definition : FieldDef} (h : definition.Readable)
    (hkind : TypeDef.ofJson? true definition.kind.toJson = some definition.kind) :
    ItemDef.ofJson? inner (.object (("item", .string "field") :: definition.toMembers)) =
      some (.field definition) := by
  have hholds : Json.Holds FieldDef.keys (("item", .string "field") :: definition.toMembers)
      definition.toMembers := .tagged (by decide)
  rw [ofJson?_tagged inner (by decide), FieldDef.kindUnder?_of_holds hholds hkind, around?_field,
    FieldDef.around?_of_holds h hholds, Option.map_some]

theorem ItemDef.ofJson?_enable (inner : Bool) {enable : Enable} (h : enable.Readable) :
    ItemDef.ofJson? inner (.object (("item", .string "enable") :: enable.toMembers)) =
      some (.enable enable) := by
  have hholds : Json.Holds ["name", "bits", "field"]
      (("item", .string "enable") :: enable.toMembers) enable.toMembers := .tagged (by decide)
  rw [ofJson?_tagged inner (by decide), around?_enable, Enable.ofJson?_of_holds h hholds,
    Option.map_some]

theorem ItemDef.ofJson?_reserved (inner : Bool) {run : Reserved} (h : run.Readable) :
    ItemDef.ofJson? inner (.object (("item", .string "reserved") :: run.toMembers)) =
      some (.reserved run) := by
  have hholds : Json.Holds ["name", "bits"] (("item", .string "reserved") :: run.toMembers)
      run.toMembers := .tagged (by decide)
  rw [ofJson?_tagged inner (by decide), around?_reserved, Reserved.ofJson?_of_holds h hholds,
    Option.map_some]

mutual

theorem TypeDef.ofJson?_toJson (inner : Bool) :
    ∀ definition : TypeDef, definition.Readable →
      TypeDef.ofJson? inner definition.toJson = some definition
  | .leaf _, h => TypeDef.ofJson?_leaf inner h
  | .record ⟨_, items, _, _⟩, h =>
    TypeDef.ofJson?_record inner (ItemDef.listOf?_listToJson true items h)
termination_by structural definition => definition

theorem ItemDef.ofJson?_toJson (inner : Bool) :
    ∀ item : ItemDef, item.Readable → ItemDef.ofJson? inner item.toJson = some item
  | .field ⟨_, kind, _, _, _, _, _⟩, h =>
    ItemDef.ofJson?_field inner h (TypeDef.ofJson?_toJson true kind h.1)
  | .enable _, h => ItemDef.ofJson?_enable inner h
  | .reserved _, h => ItemDef.ofJson?_reserved inner h
termination_by structural item => item

theorem ItemDef.listOf?_listToJson (inner : Bool) :
    ∀ items : List ItemDef, ItemDef.AllReadable items →
      ItemDef.listOf? inner (ItemDef.listToJson items) = some items
  | [], _ => rfl
  | item :: items, h => by
    simp [ItemDef.listToJson, ItemDef.listOf?, ItemDef.ofJson?_toJson inner item h.1,
      ItemDef.listOf?_listToJson inner items h.2]
termination_by structural items => items

end

theorem StructDef.ofJson?_toJson : Json.Restores ofJson? toJson Readable := by
  rintro ⟨name, items, dynamicSize, strict⟩ h
  have hitems := ItemDef.listOf?_listToJson false items h
  rw [toJson, ofJson?, Json.record?, Option.bind_eq_bind, Option.bind_some,
    itemsUnder?_of_holds .rfl hitems, around?_of_holds .rfl]

theorem FieldDef.ofJson?_toJson : Json.Restores ofJson? toJson Readable := by
  rintro ⟨name, kind, mode, enabledBy, editable, position, value⟩ h
  have hkind := TypeDef.ofJson?_toJson false kind h.1
  rw [toJson, ofJson?, Json.record?, Option.bind_eq_bind, Option.bind_some,
    kindUnder?_of_holds .rfl hkind, around?_of_holds h .rfl]

/-! ## Indicator field groups -/

namespace CifFieldDef

variable {name : String} {bit : Nat} {kind : TypeDef} {mode : Option Mode}
  {bitJson kindJson modeJson : Json}

theorem ofJson?_content (hbit : Json.small? bitJson = some bit)
    (hkind : TypeDef.ofJson? true kindJson = some kind)
    (hmode : Json.nullable? (Mode.ofJson? true) modeJson = some mode) :
    ofJson?
        (.object
          [("entry", .string "content"), ("name", .string name), ("bit", bitJson),
            ("kind", kindJson), ("mode", modeJson)]) =
      some (.content name bit kind mode) := by
  have hread : Json.optional
      [("entry", .string "content"), ("name", .string name), ("bit", bitJson),
        ("kind", kindJson), ("mode", modeJson)] "mode" (Mode.ofJson? true) = some mode :=
    (Json.optional_of_member? rfl).trans hmode
  simp [ofJson?, Json.tagged?_object, tags, Json.record?, Json.required, Json.member?,
    List.lookup_cons, Json.string?, hbit, hkind, hread]

theorem ofJson?_indicator (hbit : Json.small? bitJson = some bit) :
    ofJson?
        (.object [("entry", .string "indicator"), ("name", .string name), ("bit", bitJson)]) =
      some (.indicator name bit) := by
  simp [ofJson?, Json.tagged?_object, tags, Json.record?, Json.required, Json.member?,
    List.lookup_cons, Json.string?, hbit]

theorem ofJson?_reserved (hbit : Json.small? bitJson = some bit) :
    ofJson? (.object [("entry", .string "reserved"), ("bit", bitJson)]) =
      some (.reserved bit) := by
  simp [ofJson?, Json.tagged?_object, tags, Json.record?, Json.required, Json.member?,
    List.lookup_cons, hbit]

theorem ofJson?_toJson : Json.Restores ofJson? toJson Readable := by
  intro definition h
  cases definition with
  | content name bit kind mode =>
    exact ofJson?_content (Json.small?_ofNat h.1) (TypeDef.ofJson?_toJson true kind h.2)
      (Mode.nullable?_ofOption true mode)
  | indicator name bit => exact ofJson?_indicator (Json.small?_ofNat h)
  | reserved bit => exact ofJson?_reserved (Json.small?_ofNat h)

end CifFieldDef

theorem CifDef.ofJson?_object {name : String} {fields : List CifFieldDef} {fieldsJson : Json}
    (hfields : Json.listOf? CifFieldDef.ofJson? fieldsJson = some fields) :
    ofJson? (.object [("name", .string name), ("fields", fieldsJson)]) = some ⟨name, fields⟩ := by
  simp [ofJson?, Json.record?, Json.required, Json.member?, List.lookup_cons, Json.string?,
    hfields]

theorem CifDef.ofJson?_toJson : Json.Restores ofJson? toJson Readable :=
  fun _ h => ofJson?_object (CifFieldDef.ofJson?_toJson.listOf h)

/-! ## Surviving -/

namespace Json

variable {α : Type} {read : Json → Option α} {write : α → Json} {bound : α → Prop}

/-- The written form of what a value gives, with every default filled in. -/
def normalise (read : Json → Option α) (write : α → Json) (json : Json) : Option Json :=
  (read json).map write

/-- What the reader and the writer of one kind of definition promise together. -/
structure Survives (read : Json → Option α) (write : α → Json) (bound : α → Prop) : Prop where
  /-- The definitions within the bounds are those that a value can give. -/
  given_iff : ∀ value, (∃ json, read json = some value) ↔ bound value
  /-- A definition that was read comes back from its written form. -/
  reread : ∀ json value, read json = some value → read (write value) = some value
  /-- A value that is normalised stays as it is. -/
  normal : ∀ json, (normalise read write json).bind (normalise read write) =
    normalise read write json

theorem Survives.of_restores (hyields : Yields read bound) (hrestores : Restores read write bound) :
    Survives read write bound where
  given_iff value := ⟨fun ⟨_, hread⟩ => hyields hread, fun h => ⟨write value, hrestores h⟩⟩
  reread _ _ hread := hrestores (hyields hread)
  normal json := by
    cases hread : read json with
    | none => simp [normalise, hread]
    | some value => simp [normalise, hread, hrestores (hyields hread)]

end Json

/-- Every kind of definition survives writing, whether it stands alone or inside another one, and
the definition that is read again does the same work in every workshop. -/
theorem definitions_survive_writing :
    (Json.Survives StructDef.ofJson? StructDef.toJson StructDef.Readable ∧
      (∀ inner, Json.Survives (ItemDef.ofJson? inner) ItemDef.toJson ItemDef.Readable) ∧
      Json.Survives FieldDef.ofJson? FieldDef.toJson FieldDef.Readable ∧
      (∀ inner, Json.Survives (TypeDef.ofJson? inner) TypeDef.toJson TypeDef.Readable) ∧
      Json.Survives ValueDef.ofJson? ValueDef.toJson ValueDef.Readable ∧
      (∀ inner, Json.Survives (Mode.ofJson? inner) Mode.toJson fun _ => True) ∧
      Json.Survives PositionDef.ofJson? PositionDef.toJson PositionDef.Readable ∧
      Json.Survives CifDef.ofJson? CifDef.toJson CifDef.Readable ∧
      Json.Survives CifFieldDef.ofJson? CifFieldDef.toJson CifFieldDef.Readable) ∧
    (∀ json definition, StructDef.ofJson? json = some definition →
      ∃ again, StructDef.ofJson? definition.toJson = some again ∧
        (∀ base, again.compile base = definition.compile base) ∧
        ∀ layout, again.instantiate layout = definition.instantiate layout) ∧
    ∀ json definition, CifDef.ofJson? json = some definition →
      ∃ again, CifDef.ofJson? definition.toJson = some again ∧
        again.compile = definition.compile := by
  refine ⟨⟨.of_restores StructDef.ofJson?_yields StructDef.ofJson?_toJson,
    fun inner => .of_restores (ItemDef.ofJson?_yields inner) (ItemDef.ofJson?_toJson inner),
    .of_restores FieldDef.ofJson?_yields FieldDef.ofJson?_toJson,
    fun inner => .of_restores (TypeDef.ofJson?_yields inner) (TypeDef.ofJson?_toJson inner),
    .of_restores ValueDef.ofJson?_yields ValueDef.ofJson?_toJson,
    fun inner => .of_restores (fun _ _ _ => trivial) (Mode.ofJson?_toJson inner),
    .of_restores PositionDef.ofJson?_yields PositionDef.ofJson?_toJson,
    .of_restores CifDef.ofJson?_yields CifDef.ofJson?_toJson,
    .of_restores CifFieldDef.ofJson?_yields CifFieldDef.ofJson?_toJson⟩, ?_, ?_⟩
  · intro json definition hread
    have hagain := StructDef.ofJson?_toJson (StructDef.ofJson?_yields hread)
    exact ⟨definition, hagain, fun _ => rfl, fun _ => rfl⟩
  · intro json definition hread
    exact ⟨definition, CifDef.ofJson?_toJson (CifDef.ofJson?_yields hread), rfl⟩

/-- A list of values becomes an object, and a default is spelled out. -/
example :
    Json.normalise (TypeDef.ofJson? false) TypeDef.toJson (.array [.string "boolean"]) =
      some (.object [("type", .string "boolean"), ("bits", .int 1)]) := rfl

end RadioPacket
