import RadioPacket.Proofs.Definition.Independence
import RadioPacket.Proofs.Layout.Derived

/-!
# What a layout keeps of its definition

The fields and enables that a definition declares have distinct names once it compiles, and each
field stands in the layout under its name, with the type that its definition stands for.  Steps,
gates and a base do not matter for that.
-/

namespace RadioPacket

/-- The name of a declared field or enable. -/
def ItemDef.name? : ItemDef → Option String
  | .field definition => some definition.name
  | .enable gate => some gate.name
  | .reserved _ => none

/-- The declared names are distinct. -/
def ItemDef.Distinct (items : List ItemDef) : Prop := (items.filterMap ItemDef.name?).Nodup

/-- The layout holds a field for each of the declared ones, and the declared names are distinct. -/
structure Layout.Realises (layout : Layout) (items : List ItemDef) : Prop where
  linked : layout.Linked
  distinct : ItemDef.Distinct items
  fields : ∀ d, ItemDef.field d ∈ items → ∃ slot ∈ layout.slots, ∃ field, slot.item = .field field ∧
    field.name = d.name ∧ field.editable = d.editable ∧ d.kind.Yields field.type

namespace ItemDef

variable {items : List ItemDef} {item : ItemDef} {steps : List Step}

theorem Distinct.tail (h : Distinct (item :: items)) : Distinct items :=
  h.sublist ((List.sublist_cons_self item items).filterMap _)

theorem Distinct.name?_ne_head (h : Distinct (item :: items)) {other : ItemDef}
    (hother : other ∈ items) {name : String} (hname : other.name? = some name) :
    item.name? ≠ some name := by
  intro hitem
  rw [Distinct, List.filterMap_cons_some hitem, List.nodup_cons] at h
  exact h.1 (List.mem_filterMap.mpr ⟨other, hother, hname⟩)

theorem Distinct.eq_of_name? (h : Distinct items) {a b : ItemDef} (ha : a ∈ items) (hb : b ∈ items)
    {name : String} (haname : a.name? = some name) (hbname : b.name? = some name) : a = b := by
  induction items with
  | nil => cases ha
  | cons item items ih =>
      rcases List.mem_cons.mp ha with rfl | hatail
      · rcases List.mem_cons.mp hb with rfl | hbtail
        · rfl
        · exact absurd haname (h.name?_ne_head hbtail hbname)
      · rcases List.mem_cons.mp hb with rfl | hbtail
        · exact absurd hbname (h.name?_ne_head hatail haname)
        · exact ih h.tail hatail hbtail

theorem Distinct.field_eq (h : Distinct items) {d e : FieldDef} (hd : .field d ∈ items)
    (he : .field e ∈ items) (hname : d.name = e.name) : d = e :=
  ItemDef.field.inj (h.eq_of_name? hd he rfl (congrArg some hname.symm))

end ItemDef

theorem Layout.Realises.tail {layout : Layout} {item : ItemDef} {items : List ItemDef}
    (h : layout.Realises (item :: items)) : layout.Realises items where
  linked := h.linked
  distinct := h.distinct.tail
  fields d hd := h.fields d (List.mem_cons_of_mem item hd)

/-! ## The steps of a definition -/

theorem FieldDef.item_stepOf (position : Option PositionDef) (field : Field) :
    (stepOf position field).item = .field field := by
  cases position with
  | none => rfl
  | some place => rfl

theorem FieldDef.untied_fieldOf (name : String) (type : FieldType) (mode : Option Mode)
    (enabledBy : Option String) (editable : Bool) :
    (Item.field (fieldOf name type mode enabledBy editable)).untied =
      .field { name, type, editable } := by
  cases enabledBy with
  | none =>
      cases mode with
      | none => rfl
      | some declared => rfl
  | some gate =>
      cases mode with
      | none => rfl
      | some declared => rfl

theorem FieldDef.name_fieldOf {name : String} {type : FieldType} {mode : Option Mode}
    {enabledBy : Option String} {editable : Bool} :
    (fieldOf name type mode enabledBy editable).name = name := by
  have hname := congrArg Item.name? (untied_fieldOf name type mode enabledBy editable)
  rw [Item.name?_untied] at hname
  exact Option.some.inj hname

/-- The step that an item stands for. -/
def ItemDef.Brings : ItemDef → Step → Prop
  | .field d, step => ∃ type, d.kind.Yields type ∧
      step = FieldDef.stepOf d.position
        (FieldDef.fieldOf d.name type d.mode d.enabledBy d.editable)
  | .enable declared, step => step = .append (.enable declared)
  | .reserved run, step => step = .append (.reserved run)

namespace ItemDef

variable {item : ItemDef} {items : List ItemDef} {step : Step} {steps : List Step}

/-- The steps of items are those of each item, in order. -/
theorem yield_cons : Yield (item :: items) steps ↔
    ∃ step rest, item.Brings step ∧ Yield items rest ∧ steps = step :: rest := by
  rcases item with ⟨name, kind, mode, enabledBy, editable, position, value⟩ | declared | run
  · constructor
    · rintro ⟨type, rest, htype, hrest, rfl⟩
      exact ⟨_, rest, ⟨type, htype, rfl⟩, hrest, rfl⟩
    · rintro ⟨_, rest, ⟨type, htype, rfl⟩, hrest, rfl⟩
      exact ⟨type, rest, htype, hrest, rfl⟩
  · constructor
    · rintro ⟨rest, hrest, rfl⟩
      exact ⟨_, rest, rfl, hrest, rfl⟩
    · rintro ⟨_, rest, rfl, hrest, rfl⟩
      exact ⟨rest, hrest, rfl⟩
  · constructor
    · rintro ⟨rest, hrest, rfl⟩
      exact ⟨_, rest, rfl, hrest, rfl⟩
    · rintro ⟨_, rest, rfl, hrest, rfl⟩
      exact ⟨rest, hrest, rfl⟩

theorem Yield.exists_step (h : Yield items steps) (hitem : item ∈ items) :
    ∃ step ∈ steps, item.Brings step := by
  induction items generalizing steps with
  | nil => cases hitem
  | cons first items ih =>
      obtain ⟨own, rest, hown, hrest, rfl⟩ := yield_cons.mp h
      rcases List.mem_cons.mp hitem with rfl | hitem
      · exact ⟨own, List.mem_cons_self, hown⟩
      · obtain ⟨step, hstep, hbrings⟩ := ih hrest hitem
        exact ⟨step, List.mem_cons_of_mem own hstep, hbrings⟩

theorem Brings.names (h : item.Brings step) (rest : List Item) :
    (Item.solid (step.item :: rest)).filterMap Item.name? =
      item.name?.toList ++ (Item.solid rest).filterMap Item.name? := by
  cases item with
  | field d =>
      obtain ⟨type, _, rfl⟩ := h
      let field := FieldDef.fieldOf d.name type d.mode d.enabledBy d.editable
      have hname : (Item.field field).name? = some d.name := congrArg some FieldDef.name_fieldOf
      rw [FieldDef.item_stepOf, Item.solid_field_cons, List.filterMap_cons_some hname]
      rfl
  | enable declared =>
      cases h
      rfl
  | reserved run =>
      cases h
      rfl

theorem Yield.names (h : Yield items steps) :
    (Item.solid (steps.map Step.item)).filterMap Item.name? = items.filterMap ItemDef.name? := by
  induction items generalizing steps with
  | nil =>
      cases h
      rfl
  | cons item items ih =>
      obtain ⟨step, rest, hstep, hrest, rfl⟩ := yield_cons.mp h
      rw [List.map_cons, hstep.names, ih hrest, List.filterMap_cons]
      cases item.name? with
      | none => rfl
      | some name => rfl

end ItemDef

/-! ## The slots of a layout -/

namespace Layout

def field? (layout : Layout) (name : String) : Option Field :=
  (layout.find? name).bind fun slot => slot.item.field?

/-- The field of the given name stands in a slot of the layout. -/
structure Finds (layout : Layout) (name : String) (index : Nat) (slot : Slot) (field : Field) :
    Prop where
  named : layout.index? name = some index
  placed : layout.slots[index]? = some slot
  item : slot.item = .field field

variable {layout : Layout} {field : Field} {name : String}

theorem Finds.field_name {index : Nat} {slot : Slot} (h : layout.Finds name index slot field) :
    field.name = name := by
  obtain ⟨hlt, hname, _⟩ := List.findIdx?_eq_some_iff_getElem.mp h.named
  obtain ⟨_, rfl⟩ := List.getElem?_eq_some_iff.mp h.placed
  rw [beq_iff_eq, Slot.name?, h.item] at hname
  exact Option.some.inj hname

theorem field?_eq_some :
    layout.field? name = some field ↔ ∃ index slot, layout.Finds name index slot field := by
  simp only [field?, find?, Option.bind_eq_some_iff, slot?]
  constructor
  · rintro ⟨slot, ⟨index, hindex, hslot⟩, hfield⟩
    exact ⟨index, slot, hindex, hslot, Item.eq_field_of_field? hfield⟩
  · rintro ⟨index, slot, hindex, hslot, hfield⟩
    exact ⟨slot, ⟨index, hindex, hslot⟩, by rw [hfield, Item.field?]⟩

theorem Linked.finds (h : layout.Linked) {index : Nat} {slot : Slot}
    (hslot : layout.slots[index]? = some slot) (hfield : slot.item = .field field) :
    layout.Finds field.name index slot field where
  named := by
    refine (index?_eq_some_of_nodup h.names).mpr ⟨slot, hslot, ?_⟩
    rw [Slot.name?, hfield, Item.name?]
  placed := hslot
  item := hfield

end Layout

/-- A build keeps every field and enable of its steps, but for their ties. -/
theorem Blueprint.exists_item_of_build {blueprint : Blueprint} {layout : Layout}
    (h : blueprint.build = .ok layout) {step : Step} (hstep : step ∈ blueprint.steps)
    (hsolid : step.item.isReserved = false) :
    ∃ item ∈ layout.items, item.untied = step.item.untied := by
  obtain ⟨⟨placed, hplace, hfreeze⟩, _⟩ := build_iff.mp h
  obtain ⟨_, _, rfl⟩ := freeze_eq_ok.mp hfreeze
  have hmem : step.item ∈ placed := mem_of_place_step hplace hstep hsolid
  refine ⟨Linkage.tie placed step.item, ?_, Linkage.untied_tie placed step.item⟩
  rw [items_laidOut]
  exact List.mem_map_of_mem hmem

/-- A build has distinct names, so its steps bring in distinct ones. -/
theorem Blueprint.distinct_of_build {blueprint : Blueprint} {layout : Layout}
    (h : blueprint.build = .ok layout) :
    ((Item.solid (blueprint.steps.map Step.item)).filterMap Item.name?).Nodup := by
  obtain ⟨⟨placed, hplace, hfreeze⟩, _⟩ := build_iff.mp h
  obtain ⟨⟨_, hnames⟩, _⟩ := freeze_eq_ok.mp hfreeze
  have hsolid : ((Item.solid placed).filterMap Item.name?).Nodup :=
    hnames.sublist (List.filter_sublist.filterMap _)
  rw [((solid_perm_of_place hplace).filterMap _).nodup_iff, List.filterMap_append,
    List.nodup_append] at hsolid
  exact hsolid.2.1

/-- What a definition compiles to realises its items. -/
theorem ItemDef.Yield.realises {items : List ItemDef} {steps : List Step} {blueprint : Blueprint}
    {layout : Layout} (h : ItemDef.Yield items steps) (hsteps : blueprint.steps = steps)
    (hbuild : blueprint.build = .ok layout) : layout.Realises items := by
  obtain rfl := hsteps
  constructor
  · exact Blueprint.linked_of_build hbuild
  · rw [ItemDef.Distinct, ← h.names]
    exact Blueprint.distinct_of_build hbuild
  · intro d hd
    obtain ⟨_, hstep, type, htype, rfl⟩ := h.exists_step hd
    obtain ⟨item, hitem, hsame⟩ := Blueprint.exists_item_of_build hbuild hstep (by
      rw [FieldDef.item_stepOf]
      rfl)
    rw [FieldDef.item_stepOf, FieldDef.untied_fieldOf] at hsame
    obtain ⟨slot, hslot, rfl⟩ := List.mem_map.mp hitem
    cases hfield : slot.item with
    | field field =>
        obtain ⟨name, own, mode, enabledBy, editable, bit⟩ := field
        rw [hfield] at hsame
        cases hsame
        exact ⟨slot, hslot, _, hfield, rfl, rfl, htype⟩
    | enable gate =>
        rw [hfield] at hsame
        cases hsame
    | reserved run =>
        rw [hfield] at hsame
        cases hsame

theorem StructDef.Yields.realises {definition : StructDef} {base : Option Layout} {layout : Layout}
    (h : definition.Yields base layout) : layout.Realises definition.items := by
  obtain ⟨steps, hyield, hbuild⟩ := h
  exact hyield.realises rfl hbuild

theorem StructDef.Compiles.realises {definition : StructDef} {base : Option Layout}
    {orders : List Workshop.Order} {layout : Layout}
    (h : definition.Compiles base orders layout) : layout.Realises definition.items :=
  (compiles_iff.mp h).1.realises

theorem TypeDef.Yields.realises {kind : TypeDef} {layout : Layout}
    (h : kind.Yields (.record layout)) :
    ∃ inner, kind = .record inner ∧ layout.Realises inner.items := by
  rcases kind with shape | ⟨name, items, dynamicSize, strict⟩
  · obtain ⟨leaf, _, htype⟩ := h
    cases htype
  · obtain ⟨steps, own, hyield, hbuild, htype⟩ := h
    cases htype
    exact ⟨_, rfl, hyield.realises rfl hbuild⟩

theorem TypeDef.Yields.of_record {kind : TypeDef} {type : FieldType} (h : kind.Yields type)
    {inner : StructDef} (hkind : kind = .record inner) :
    ∃ layout, type = .record layout ∧ layout.Realises inner.items := by
  obtain ⟨name, items, dynamicSize, strict⟩ := inner
  rw [hkind] at h
  obtain ⟨steps, layout, hyield, hbuild, rfl⟩ := h
  exact ⟨layout, rfl, hyield.realises rfl hbuild⟩

theorem TypeDef.Yields.leaf {kind : TypeDef} {type : LeafType} (h : kind.Yields (.leaf type)) :
    ∃ shape, kind = .leaf shape := by
  rcases kind with shape | ⟨name, items, dynamicSize, strict⟩
  · exact ⟨shape, rfl⟩
  · obtain ⟨_, _, _, _, htype⟩ := h
    cases htype

end RadioPacket
