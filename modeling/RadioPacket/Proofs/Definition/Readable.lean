import Mathlib.Tactic.SplitIfs
import RadioPacket.Definition.Reader

/-!
# Definitions that a JSON value can give

Names and flags of a definition are free, but its numbers are bounded: widths, indices and symbol
values are 64-bit numbers, bit numbers and radices are 32-bit numbers, and an initial value is kept
unsigned only when no signed number can hold it.  What is read keeps these bounds, whatever is left
to defaults.  The recursion follows the values that are read.
-/

namespace RadioPacket

/-! ## Readers and what they give -/

namespace Json

/-- Whatever the reader accepts has the property. -/
def Yields {α : Type} (read : Json → Option α) (property : α → Prop) : Prop :=
  ∀ ⦃json value⦄, read json = some value → property value

variable {α : Type} {read : Json → Option α} {property : α → Prop} {value : α} {fallback : α}
  {members : List (String × Json)} {key : String}

theorem required_eq_some :
    required members key read = some value ↔
      ∃ json, member? members key = some json ∧ read json = some value := by
  cases hmember : member? members key with
  | none => simp [required, hmember]
  | some json => simp [required, hmember]

namespace Yields

theorem required (h : Yields read property) (hread : required members key read = some value) :
    property value := by
  obtain ⟨_, _, hread⟩ := required_eq_some.mp hread
  exact h hread

theorem defaulted (h : Yields read property) (hfallback : property fallback)
    (hread : defaulted members key fallback read = some value) : property value := by
  unfold Json.defaulted at hread
  split at hread
  · exact h hread
  · exact Option.some.inj hread ▸ hfallback

theorem optional {held : Option α} (h : Yields read property)
    (hread : optional members key read = some held) : ∀ value ∈ held, property value := by
  unfold Json.optional at hread
  split at hread
  · cases hread
    exact fun _ hvalue => nomatch hvalue
  · cases hread
    exact fun _ hvalue => nomatch hvalue
  · obtain ⟨found, hfound, rfl⟩ := Option.map_eq_some_iff.mp hread
    rintro value ⟨rfl⟩
    exact h hfound

theorem mapM (h : Yields read property) :
    ∀ {elements : List Json} {values : List α},
      elements.mapM read = some values → ∀ value ∈ values, property value
  | [], _, hread => by
    cases hread
    exact fun _ hvalue => nomatch hvalue
  | json :: rest, values, hread => by
    simp only [List.mapM_cons, Option.bind_eq_bind, Option.bind_eq_some_iff, Option.pure_def,
      Option.some.injEq] at hread
    obtain ⟨first, hfirst, others, hothers, rfl⟩ := hread
    exact List.forall_mem_cons.mpr ⟨h hfirst, mapM h hothers⟩

theorem listOf (h : Yields read property) :
    Yields (listOf? read) fun values => ∀ value ∈ values, property value := by
  intro json values hread
  cases json with
  | array elements => exact h.mapM hread
  | null => cases hread
  | bool _ => cases hread
  | int _ => cases hread
  | float _ => cases hread
  | string _ => cases hread
  | object _ => cases hread

end Yields

theorem nat?_eq_some {bits value : Nat} {json : Json} :
    json.nat? bits = some value ↔ json = .int value ∧ value < 2 ^ bits := by
  constructor
  · intro h
    unfold nat? at h
    split at h
    · next number =>
      split at h
      · next hrange =>
        cases h
        have hbound : (number.toNat : Int) < (2 ^ bits : Nat) := by
          rw [Int.toNat_of_nonneg hrange.1]
          exact_mod_cast hrange.2
        refine ⟨?_, by exact_mod_cast hbound⟩
        rw [Int.toNat_of_nonneg hrange.1]
      · cases h
    · cases h
  · rintro ⟨rfl, hbound⟩
    have hrange : (value : Int) < 2 ^ bits := by exact_mod_cast hbound
    simp [nat?, hrange]

theorem size?_yields : Yields size? (· < 2 ^ 64) := fun _ _ h => (nat?_eq_some.mp h).2

theorem small?_yields : Yields small? (· < 2 ^ 32) := fun _ _ h => (nat?_eq_some.mp h).2

end Json

/-! ## Bounds of a definition -/

def PositionDef.Readable (definition : PositionDef) : Prop :=
  definition.word < 2 ^ 64 ∧ definition.bit < 2 ^ 32

/-- A number is kept signed if it can be. -/
def ValueDef.Readable : ValueDef → Prop
  | .scalar (.signed value) => -2 ^ 63 ≤ value ∧ value < 2 ^ 63
  | .scalar (.unsigned value) => 2 ^ 63 ≤ value ∧ value < 2 ^ 64
  | _ => True

def LeafShape.Readable : LeafShape → Prop
  | .boolean bits => bits < 2 ^ 64
  | .integer bits _ => bits < 2 ^ 64
  | .fixedPoint bits radix _ => bits < 2 ^ 64 ∧ radix < 2 ^ 32
  | .nonZeroSize bits => bits < 2 ^ 64
  | .enumeration table => table.bits < 2 ^ 64 ∧ ∀ symbol ∈ table.symbols, symbol.2 < 2 ^ 64

def Enable.Readable (enable : Enable) : Prop := enable.bits < 2 ^ 64

def Reserved.Readable (run : Reserved) : Prop := run.bits < 2 ^ 64

mutual

def TypeDef.Readable : TypeDef → Prop
  | .leaf shape => shape.Readable
  | .record definition => definition.Readable
termination_by structural definition => definition

def FieldDef.Readable : FieldDef → Prop
  | ⟨_, kind, _, _, _, position, value⟩ =>
      kind.Readable ∧ (∀ place ∈ position, place.Readable) ∧
        ∀ initial ∈ value, ValueDef.Readable initial
termination_by structural definition => definition

def ItemDef.Readable : ItemDef → Prop
  | .field definition => definition.Readable
  | .enable enable => enable.Readable
  | .reserved run => run.Readable
termination_by structural item => item

def ItemDef.AllReadable : List ItemDef → Prop
  | [] => True
  | item :: items => item.Readable ∧ ItemDef.AllReadable items
termination_by structural items => items

def StructDef.Readable : StructDef → Prop
  | ⟨_, items, _, _⟩ => ItemDef.AllReadable items
termination_by structural definition => definition

end

def CifFieldDef.Readable : CifFieldDef → Prop
  | .content _ bit kind _ => bit < 2 ^ 32 ∧ kind.Readable
  | .indicator _ bit => bit < 2 ^ 32
  | .reserved bit => bit < 2 ^ 32

def CifDef.Readable (definition : CifDef) : Prop := ∀ field ∈ definition.fields, field.Readable

/-! ## What is read keeps the bounds -/

theorem PositionDef.ofJson?_yields : Json.Yields ofJson? Readable := by
  intro json definition h
  simp only [ofJson?, Option.bind_eq_bind, Option.bind_eq_some_iff, Option.some.injEq] at h
  obtain ⟨_, _, word, hword, bit, hbit, rfl⟩ := h
  exact ⟨Json.size?_yields.required hword, Json.small?_yields.required hbit⟩

theorem ValueDef.ofJson?_yields : Json.Yields ofJson? Readable := by
  intro json definition h
  cases json with
  | int value =>
    simp only [ofJson?] at h
    split at h
    · next hsigned =>
      cases h
      exact hsigned
    · next hsigned =>
      split at h
      · next hunsigned =>
        cases h
        constructor <;> omega
      · cases h
        trivial
  | bool _ => cases h; trivial
  | float _ => cases h; trivial
  | string _ => cases h; trivial
  | null => cases h
  | array _ => cases h
  | object _ => cases h

theorem EnumTable.symbolOfJson?_yields :
    Json.Yields symbolOfJson? fun symbol => symbol.2 < 2 ^ 64 := by
  intro json symbol h
  simp only [symbolOfJson?, Option.bind_eq_bind, Option.bind_eq_some_iff, Option.some.injEq] at h
  obtain ⟨_, _, _, _, _, hvalue, rfl⟩ := h
  exact Json.size?_yields.required hvalue

theorem LeafShape.readable_of_ofTagged? {tag : String} {body : Json} {shape : LeafShape}
    (h : ofTagged? tag body = some shape) : shape.Readable := by
  unfold ofTagged? at h
  split_ifs at h
  all_goals
    simp only [Option.bind_eq_bind, Option.bind_eq_some_iff, Option.some.injEq] at h
  · obtain ⟨_, _, bits, hbits, rfl⟩ := h
    exact Json.size?_yields.defaulted (by decide) hbits
  · obtain ⟨_, _, bits, hbits, _, _, rfl⟩ := h
    exact Json.size?_yields.required hbits
  · obtain ⟨_, _, bits, hbits, radix, hradix, _, _, rfl⟩ := h
    exact ⟨Json.size?_yields.required hbits, Json.small?_yields.required hradix⟩
  · obtain ⟨_, _, bits, hbits, rfl⟩ := h
    exact Json.size?_yields.required hbits
  · obtain ⟨_, _, _, _, bits, hbits, symbols, hsymbols, rfl⟩ := h
    exact ⟨Json.size?_yields.required hbits,
      EnumTable.symbolOfJson?_yields.listOf.required hsymbols⟩

theorem Enable.ofJson?_yields : Json.Yields ofJson? Readable := by
  intro json enable h
  simp only [ofJson?, Option.bind_eq_bind, Option.bind_eq_some_iff, Option.some.injEq] at h
  obtain ⟨_, _, _, _, bits, hbits, _, _, rfl⟩ := h
  have hbound : bits < 2 ^ 64 := Json.size?_yields.defaulted (by decide) hbits
  exact hbound

theorem Reserved.ofJson?_yields : Json.Yields ofJson? Readable := by
  intro json run h
  simp only [ofJson?, Option.bind_eq_bind, Option.bind_eq_some_iff, Option.some.injEq] at h
  obtain ⟨_, _, _, _, bits, hbits, rfl⟩ := h
  exact Json.size?_yields.required hbits

theorem StructDef.readable_of_around? {json : Json} {items : Option (List ItemDef)}
    {definition : StructDef} (h : around? json items = some definition)
    (hitems : ∀ read ∈ items, ItemDef.AllReadable read) : definition.Readable := by
  simp only [around?, Option.bind_eq_bind, Option.bind_eq_some_iff, Option.some.injEq] at h
  obtain ⟨_, _, _, _, read, hread, _, _, _, _, rfl⟩ := h
  exact hitems read hread

theorem FieldDef.readable_of_around? {inner : Bool} {json : Json} {kind : Option TypeDef}
    {definition : FieldDef} (h : around? inner json kind = some definition)
    (hkind : ∀ read ∈ kind, read.Readable) : definition.Readable := by
  simp only [around?, Option.bind_eq_bind, Option.bind_eq_some_iff, Option.some.injEq] at h
  obtain ⟨_, _, _, _, read, hread, _, _, _, _, _, _, position, hposition, value, hvalue, rfl⟩ := h
  exact ⟨hkind read hread, PositionDef.ofJson?_yields.optional hposition,
    ValueDef.ofJson?_yields.optional hvalue⟩

theorem ItemDef.readable_of_around? {tag : String} {body : Json} {kind : Option TypeDef}
    {item : ItemDef} (h : around? tag body kind = some item)
    (hkind : ∀ read ∈ kind, read.Readable) : item.Readable := by
  unfold around? at h
  split_ifs at h
  all_goals obtain ⟨read, hread, rfl⟩ := Option.map_eq_some_iff.mp h
  · exact FieldDef.readable_of_around? hread hkind
  · exact Enable.ofJson?_yields hread
  · exact Reserved.ofJson?_yields hread

theorem TypeDef.readable_of_around? {tag : String} {body : Json} {items : Option (List ItemDef)}
    {definition : TypeDef} (h : around? tag body items = some definition)
    (hitems : ∀ read ∈ items, ItemDef.AllReadable read) : definition.Readable := by
  unfold around? at h
  split_ifs at h
  all_goals obtain ⟨read, hread, rfl⟩ := Option.map_eq_some_iff.mp h
  · exact StructDef.readable_of_around? hread hitems
  · exact LeafShape.readable_of_ofTagged? hread

mutual

theorem TypeDef.readable_of_ofJson? (inner : Bool) :
    ∀ (json : Json) (definition : TypeDef),
      TypeDef.ofJson? inner json = some definition → definition.Readable
  | .object members, definition, h => by
    simp only [TypeDef.ofJson?, Option.bind_eq_bind, Option.bind_eq_some_iff] at h
    obtain ⟨_, _, h⟩ := h
    exact TypeDef.readable_of_around? h fun read hread =>
      StructDef.readable_of_itemsUnder? true members read hread
  | .array (tag :: elements), definition, h => by
    simp only [TypeDef.ofJson?, Option.bind_eq_bind, Option.bind_eq_some_iff] at h
    obtain ⟨_, _, h⟩ := h
    exact TypeDef.readable_of_around? h fun read hread =>
      StructDef.readable_of_itemsSecond? true elements read hread
  | .array [], _, h | .null, _, h | .bool _, _, h | .int _, _, h | .float _, _, h
  | .string _, _, h => nomatch h
termination_by structural json => json

theorem ItemDef.readable_of_ofJson? (inner : Bool) :
    ∀ (json : Json) (item : ItemDef), ItemDef.ofJson? inner json = some item → item.Readable
  | .object members, item, h => by
    simp only [ItemDef.ofJson?, Option.bind_eq_bind, Option.bind_eq_some_iff] at h
    obtain ⟨_, _, h⟩ := h
    exact ItemDef.readable_of_around? h fun read hread =>
      FieldDef.readable_of_kindUnder? true members read hread
  | .array (tag :: elements), item, h => by
    simp only [ItemDef.ofJson?, Option.bind_eq_bind, Option.bind_eq_some_iff] at h
    obtain ⟨_, _, h⟩ := h
    exact ItemDef.readable_of_around? h fun read hread =>
      FieldDef.readable_of_kindSecond? true elements read hread
  | .array [], _, h | .null, _, h | .bool _, _, h | .int _, _, h | .float _, _, h
  | .string _, _, h => nomatch h
termination_by structural json => json

theorem ItemDef.allReadable_of_listOfJson? (inner : Bool) :
    ∀ (json : Json) (items : List ItemDef),
      ItemDef.listOfJson? inner json = some items → ItemDef.AllReadable items
  | .array elements, items, h => ItemDef.allReadable_of_listOf? inner elements items h
  | .object _, _, h | .null, _, h | .bool _, _, h | .int _, _, h | .float _, _, h
  | .string _, _, h => nomatch h
termination_by structural json => json

theorem ItemDef.allReadable_of_listOf? (inner : Bool) :
    ∀ (elements : List Json) (items : List ItemDef),
      ItemDef.listOf? inner elements = some items → ItemDef.AllReadable items
  | [], _, h => by
    cases h
    trivial
  | json :: rest, items, h => by
    simp only [ItemDef.listOf?, Option.bind_eq_bind, Option.bind_eq_some_iff,
      Option.some.injEq] at h
    obtain ⟨item, hitem, others, hothers, rfl⟩ := h
    exact ⟨ItemDef.readable_of_ofJson? inner json item hitem,
      ItemDef.allReadable_of_listOf? inner rest others hothers⟩
termination_by structural elements => elements

theorem StructDef.readable_of_itemsUnder? (inner : Bool) :
    ∀ (members : List (String × Json)) (items : List ItemDef),
      StructDef.itemsUnder? inner members = some items → ItemDef.AllReadable items
  | [], _, h => nomatch h
  | (key, value) :: rest, items, h => by
    simp only [StructDef.itemsUnder?] at h
    split at h
    · exact ItemDef.allReadable_of_listOfJson? inner value items h
    · exact StructDef.readable_of_itemsUnder? inner rest items h
termination_by structural members => members

theorem StructDef.readable_of_itemsSecond? (inner : Bool) :
    ∀ (elements : List Json) (items : List ItemDef),
      StructDef.itemsSecond? inner elements = some items → ItemDef.AllReadable items
  | _ :: value :: _, items, h => ItemDef.allReadable_of_listOfJson? inner value items h
  | [], _, h | [_], _, h => nomatch h
termination_by structural elements => elements

theorem FieldDef.readable_of_kindUnder? (inner : Bool) :
    ∀ (members : List (String × Json)) (kind : TypeDef),
      FieldDef.kindUnder? inner members = some kind → kind.Readable
  | [], _, h => nomatch h
  | (key, value) :: rest, kind, h => by
    simp only [FieldDef.kindUnder?] at h
    split at h
    · exact TypeDef.readable_of_ofJson? inner value kind h
    · exact FieldDef.readable_of_kindUnder? inner rest kind h
termination_by structural members => members

theorem FieldDef.readable_of_kindSecond? (inner : Bool) :
    ∀ (elements : List Json) (kind : TypeDef),
      FieldDef.kindSecond? inner elements = some kind → kind.Readable
  | _ :: value :: _, kind, h => TypeDef.readable_of_ofJson? inner value kind h
  | [], _, h | [_], _, h => nomatch h
termination_by structural elements => elements

end

theorem TypeDef.ofJson?_yields (inner : Bool) : Json.Yields (ofJson? inner) Readable :=
  fun json definition => TypeDef.readable_of_ofJson? inner json definition

theorem ItemDef.ofJson?_yields (inner : Bool) : Json.Yields (ofJson? inner) Readable :=
  fun json item => ItemDef.readable_of_ofJson? inner json item

theorem StructDef.ofJson?_yields : Json.Yields ofJson? Readable := by
  intro json definition h
  simp only [ofJson?, Option.bind_eq_bind, Option.bind_eq_some_iff] at h
  obtain ⟨members, _, h⟩ := h
  exact readable_of_around? h fun read hread => readable_of_itemsUnder? false members read hread

theorem FieldDef.ofJson?_yields : Json.Yields ofJson? Readable := by
  intro json definition h
  simp only [ofJson?, Option.bind_eq_bind, Option.bind_eq_some_iff] at h
  obtain ⟨members, _, h⟩ := h
  exact readable_of_around? h fun read hread => readable_of_kindUnder? false members read hread

theorem CifFieldDef.ofJson?_yields : Json.Yields ofJson? Readable := by
  intro json definition h
  simp only [ofJson?, Option.bind_eq_bind, Option.bind_eq_some_iff] at h
  obtain ⟨⟨tag, body⟩, _, h⟩ := h
  split_ifs at h
  all_goals simp only [Option.bind_eq_some_iff, Option.some.injEq] at h
  · obtain ⟨_, _, _, _, bit, hbit, kind, hkind, _, _, rfl⟩ := h
    exact ⟨Json.small?_yields.required hbit, (TypeDef.ofJson?_yields true).required hkind⟩
  · obtain ⟨_, _, _, _, bit, hbit, rfl⟩ := h
    exact Json.small?_yields.required hbit
  · obtain ⟨_, _, bit, hbit, rfl⟩ := h
    exact Json.small?_yields.required hbit

theorem CifDef.ofJson?_yields : Json.Yields ofJson? Readable := by
  intro json definition h
  simp only [ofJson?, Option.bind_eq_bind, Option.bind_eq_some_iff, Option.some.injEq] at h
  obtain ⟨_, _, _, _, fields, hfields, rfl⟩ := h
  exact CifFieldDef.ofJson?_yields.listOf.required hfields

end RadioPacket
