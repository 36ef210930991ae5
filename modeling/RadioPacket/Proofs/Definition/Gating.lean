import RadioPacket.Container.Basic
import RadioPacket.Proofs.Definition.Realising
import RadioPacket.Proofs.Layout.Gating

/-!
# Declaring a gate on either side

A definition may tie a field to an enable on the side of the enable or on the side of the field.
Both compile or neither does, and to the same structure but for the mode of the field: an enable
that names its field relaxes a field that is declared to be required, and a field that names its
enable keeps every mode that it declares.
-/

namespace RadioPacket

/-- The field definition, naming an enable if it has the given name. -/
def FieldDef.naming (field gate : String) (d : FieldDef) : FieldDef :=
  { d with enabledBy := if d.name = field then some gate else d.enabledBy }

/-- The item with the link between an enable and a field declared on the field. -/
def ItemDef.gateOnField (gate field : String) : ItemDef → ItemDef
  | .field d => .field (d.naming field gate)
  | .enable declared => .enable (declared.naming gate none)
  | .reserved run => .reserved run

/-- The definition with the link between an enable and a field declared on the field. -/
def StructDef.gateOnField (definition : StructDef) (gate field : String) : StructDef :=
  { definition with items := definition.items.map (ItemDef.gateOnField gate field) }

/-- Linking gives a gated field the mode that it would have declared itself, unless the field is
declared to be required. -/
theorem Mode.gated_getD {declared : Option Mode} (h : declared ≠ some .required) :
    (declared.getD .required).gated = declared.getD .optional := by
  rcases declared with _ | mode
  · rfl
  · cases mode with
    | required => exact absurd rfl h
    | disabled => rfl
    | optional => rfl
    | mandatory => rfl

/-! ## The fields of a definition -/

namespace FieldDef

variable {name gate field : String} {type : FieldType} {mode : Option Mode}
  {enabledBy : Option String} {editable : Bool}

theorem fieldOf_some : fieldOf name type mode (some gate) editable =
    { fieldOf name type mode enabledBy editable with
      enabledBy := some gate, mode := mode.getD .optional } := by
  cases mode with
  | none =>
      cases enabledBy with
      | none => rfl
      | some other => rfl
  | some declared =>
      cases enabledBy with
      | none => rfl
      | some other => rfl

theorem enabledBy_fieldOf :
    (fieldOf name type mode enabledBy editable).enabledBy = enabledBy := by
  cases mode with
  | none =>
      cases enabledBy with
      | none => rfl
      | some other => rfl
  | some declared =>
      cases enabledBy with
      | none => rfl
      | some other => rfl

theorem mode_fieldOf_none : (fieldOf name type mode none editable).mode = mode.getD .required := by
  cases mode with
  | none => rfl
  | some declared => rfl

theorem stepOf_naming {position : Option PositionDef} {tied : Mode}
    (hmode : name = field → mode.getD .optional = tied) :
    stepOf position (fieldOf name type mode (if name = field then some gate else enabledBy)
        editable) =
      (stepOf position (fieldOf name type mode enabledBy editable)).gateOnField gate field
        tied := by
  have hfield : fieldOf name type mode (if name = field then some gate else enabledBy) editable =
      (fieldOf name type mode enabledBy editable).naming field gate tied := by
    by_cases hname : name = field
    · rw [if_pos hname, Field.naming, if_pos (name_fieldOf.trans hname), ← hmode hname]
      exact fieldOf_some
    · rw [if_neg hname, Field.naming, name_fieldOf, if_neg hname]
  rw [hfield]
  cases position with
  | none => rfl
  | some place => rfl

end FieldDef

namespace ItemDef

variable {items : List ItemDef} {gate field : String}

theorem name?_gateOnField (item : ItemDef) : (item.gateOnField gate field).name? = item.name? := by
  cases item with
  | field d => rfl
  | enable declared => exact congrArg some (declared.name_naming none)
  | reserved run => rfl

theorem distinct_map_gateOnField :
    Distinct (items.map (gateOnField gate field)) ↔ Distinct items := by
  have hname : ItemDef.name? ∘ gateOnField gate field = ItemDef.name? :=
    funext name?_gateOnField
  rw [Distinct, Distinct, List.filterMap_map, hname]

theorem enumerations_map_gateOnField :
    enumerations (items.map (gateOnField gate field)) = enumerations items := by
  induction items with
  | nil => rfl
  | cons item items ih =>
      rcases item with ⟨name, kind, mode, enabledBy, editable, position, value⟩ | declared | run
      · exact congrArg (kind.enumerations ++ ·) ih
      · exact ih
      · exact ih

theorem brings_gateOnField {item : ItemDef} {mode : Mode}
    (hmode : ∀ d, item = .field d → d.name = field → d.mode.getD .optional = mode) (step : Step) :
    (item.gateOnField gate field).Brings step ↔
      ∃ other, item.Brings other ∧ step = other.gateOnField gate field mode := by
  cases item with
  | field d =>
      constructor
      · rintro ⟨type, htype, rfl⟩
        exact ⟨_, ⟨type, htype, rfl⟩, FieldDef.stepOf_naming (hmode d rfl)⟩
      · rintro ⟨_, ⟨type, htype, rfl⟩, rfl⟩
        exact ⟨type, htype, (FieldDef.stepOf_naming (hmode d rfl)).symm⟩
  | enable declared =>
      constructor
      · rintro rfl
        exact ⟨_, rfl, rfl⟩
      · rintro ⟨_, rfl, rfl⟩
        rfl
  | reserved run =>
      constructor
      · rintro rfl
        exact ⟨_, rfl, rfl⟩
      · rintro ⟨_, rfl, rfl⟩
        rfl

/-- The steps of a definition follow its gate to the other side. -/
theorem yield_map_gateOnField {mode : Mode}
    (hmode : ∀ d, ItemDef.field d ∈ items → d.name = field → d.mode.getD .optional = mode)
    (steps : List Step) :
    Yield (items.map (gateOnField gate field)) steps ↔
      ∃ others, Yield items others ∧ steps = others.map (Step.gateOnField gate field mode) := by
  induction items generalizing steps with
  | nil => simp only [List.map_nil, Yield, exists_eq_left]
  | cons item items ih =>
      have hrest := ih fun d hd => hmode d (List.mem_cons_of_mem item hd)
      have hfirst (step : Step) : (item.gateOnField gate field).Brings step ↔ _ :=
        brings_gateOnField (fun d hd => hmode d (hd ▸ List.mem_cons_self)) step
      simp only [List.map_cons, yield_cons, hrest, hfirst]
      constructor
      · rintro ⟨_, _, ⟨other, hother, rfl⟩, ⟨others, hothers, rfl⟩, rfl⟩
        exact ⟨_, ⟨other, others, hother, hothers, rfl⟩, rfl⟩
      · rintro ⟨_, ⟨other, others, hother, hothers, rfl⟩, rfl⟩
        exact ⟨_, _, ⟨other, hother, rfl⟩, ⟨others, hothers, rfl⟩, rfl⟩

end ItemDef

/-! ## The mode of one field -/

namespace Layout

variable {layout : Layout} {field : Field} {name : String}

theorem index?_withMode (mode : Mode) (other : String) :
    (layout.withMode name mode).index? other = layout.index? other := by
  rw [index?, index?, withMode, List.findIdx?_map]
  congr 1
  funext slot
  exact congrArg (· == some other) (Item.name?_change Item.untied_withMode slot.item)

theorem field?_withMode (h : layout.field? name = some field) (mode : Mode) :
    (layout.withMode name mode).field? name = some { field with mode } := by
  obtain ⟨index, slot, hfinds⟩ := field?_eq_some.mp h
  refine field?_eq_some.mpr ⟨index, { slot with item := slot.item.withMode name mode }, ?_, ?_, ?_⟩
  · rw [index?_withMode]
    exact hfinds.named
  · rw [withMode, List.getElem?_map, hfinds.placed, Option.map_some]
  · rw [hfinds.item]
    exact congrArg Item.field (if_pos hfinds.field_name)

theorem Linked.withMode_eq_self (h : layout.Linked) (hfield : layout.field? name = some field) :
    layout.withMode name field.mode = layout := by
  have hkept (slot : Slot) (hslot : slot ∈ layout.slots) :
      { slot with item := slot.item.withMode name field.mode } = slot := by
    obtain ⟨index, hindex⟩ := List.getElem?_of_mem hslot
    obtain ⟨item, position, link⟩ := slot
    refine congrArg (Slot.mk · position link) ?_
    cases item with
    | enable declared => rfl
    | reserved run => rfl
    | field own =>
        refine congrArg Item.field ?_
        by_cases hname : own.name = name
        · have hown := field?_eq_some.mpr ⟨index, _, h.finds hindex rfl⟩
          rw [hname, hfield] at hown
          obtain rfl := Option.some.inj hown
          rw [Field.withMode, if_pos hname]
          cases field
          rfl
        · exact if_neg hname
  rw [withMode, List.map_congr_left hkept, List.map_id']
  cases layout
  rfl

end Layout

/-! ## Compiling on either side -/

namespace StructDef

variable {definition : StructDef} {base : Option Layout} {orders : List Workshop.Order}
  {layout : Layout} {enable : Enable} {d : FieldDef}

section Sides

variable (henable : .enable enable ∈ definition.items) (hfield : .field d ∈ definition.items)
  (hlink : enable.field = some d.name) (hopen : d.enabledBy = none)

include henable hfield hlink hopen

theorem exists_steps (base : Option Layout) {steps : List Step}
    (h : ItemDef.Yield definition.items steps) :
    (∃ step ∈ (definition.blueprint base steps).steps, step.item = .enable enable) ∧
      ∃ field : Field, field.name = d.name ∧ enable.field = some field.name ∧
        field.enabledBy = none ∧ field.mode = d.mode.getD .required ∧
        ∃ step ∈ (definition.blueprint base steps).steps, step.item = .field field := by
  obtain ⟨_, hgate, rfl⟩ := h.exists_step henable
  obtain ⟨_, hstep, type, _, rfl⟩ := h.exists_step hfield
  rw [hopen] at hstep
  refine ⟨⟨_, hgate, rfl⟩, _, FieldDef.name_fieldOf, ?_, FieldDef.enabledBy_fieldOf,
    FieldDef.mode_fieldOf_none, _, hstep, FieldDef.item_stepOf _ _⟩
  rw [hlink, FieldDef.name_fieldOf]

/-- On the side of the field the definition stands for the same layout, but for the mode of the
field. -/
theorem yields_gateOnField :
    (definition.gateOnField enable.name d.name).Yields base layout ↔
      ∃ other, definition.Yields base other ∧
        layout = other.withMode d.name (d.mode.getD .optional) := by
  have hsteps (hdistinct : ItemDef.Distinct definition.items) (steps : List Step) :
      ItemDef.Yield (definition.items.map (ItemDef.gateOnField enable.name d.name)) steps ↔ _ :=
    ItemDef.yield_map_gateOnField (fun e he hname => by
      rw [hdistinct.field_eq he hfield hname]) steps
  have hbuild {steps : List Step} (h : ItemDef.Yield definition.items steps) :
      ((definition.gateOnField enable.name d.name).blueprint base
        (steps.map (Step.gateOnField enable.name d.name (d.mode.getD .optional)))).build =
          .ok layout ↔
        ∃ other, (definition.blueprint base steps).build = .ok other ∧
          layout = other.withMode d.name (d.mode.getD .optional) := by
    obtain ⟨hgate, field, hname, hnamed, hungated, _, hstep⟩ :=
      exists_steps henable hfield hlink hopen base h
    rw [← hname]
    exact Blueprint.build_gateOnField hgate hstep hnamed hungated _
  constructor
  · intro h
    have hdistinct : ItemDef.Distinct definition.items :=
      ItemDef.distinct_map_gateOnField.mp h.realises.distinct
    obtain ⟨steps, hyield, hbuilt⟩ := h
    obtain ⟨others, hothers, rfl⟩ := (hsteps hdistinct steps).mp hyield
    obtain ⟨other, hother, hsame⟩ := (hbuild hothers).mp hbuilt
    exact ⟨other, ⟨others, hothers, hother⟩, hsame⟩
  · rintro ⟨other, h, hsame⟩
    have hdistinct := h.realises.distinct
    obtain ⟨others, hothers, hbuilt⟩ := h
    exact ⟨_, (hsteps hdistinct _).mpr ⟨others, hothers, rfl⟩,
      (hbuild hothers).mpr ⟨other, hbuilt, hsame⟩⟩

/-- On the side of the enable the mode of the field is relaxed. -/
theorem Yields.gated (h : definition.Yields base layout) :
    ∃ field, layout.field? d.name = some field ∧ field.mode = (d.mode.getD .required).gated := by
  have hlinked := h.realises.linked
  obtain ⟨steps, hyield, hbuild⟩ := h
  obtain ⟨hgate, field, hname, hnamed, hungated, hmode, hstep⟩ :=
    exists_steps henable hfield hlink hopen base hyield
  have hmem := Blueprint.gated_of_build hbuild hgate hstep hnamed hungated
  obtain ⟨slot, hslot, hitem⟩ := List.mem_map.mp hmem
  obtain ⟨index, hindex⟩ := List.getElem?_of_mem hslot
  refine ⟨field.gatedBy enable.name, Layout.field?_eq_some.mpr ⟨index, slot, ?_⟩,
    congrArg Mode.gated hmode⟩
  rw [← hname]
  exact hlinked.finds hindex hitem

theorem compiles_gateOnField :
    (definition.gateOnField enable.name d.name).Compiles base orders layout ↔
      ∃ other, definition.Compiles base orders other ∧
        layout = other.withMode d.name (d.mode.getD .optional) := by
  have hsame : (definition.gateOnField enable.name d.name).enumerations = definition.enumerations :=
    ItemDef.enumerations_map_gateOnField
  simp only [compiles_iff, hsame, yields_gateOnField henable hfield hlink hopen]
  constructor
  · rintro ⟨⟨other, hyields, rfl⟩, hconsistent⟩
    exact ⟨other, ⟨hyields, hconsistent⟩, rfl⟩
  · rintro ⟨other, ⟨hyields, hconsistent⟩, rfl⟩
    exact ⟨⟨other, hyields, rfl⟩, hconsistent⟩

end Sides

/-- A gate may be declared on the enable or on the field.  A definition compiles with both or with
neither, to structures that differ in the mode of the field at most: declared on the enable, the
gate makes a required field optional, and declared on the field, it leaves a declared mode as it is.
So the structures are the same unless the field is declared to be required. -/
theorem gate_on_either_side (base : Option Layout) (orders : List Workshop.Order)
    (henable : .enable enable ∈ definition.items) (hfield : .field d ∈ definition.items)
    (hlink : enable.field = some d.name) (hopen : d.enabledBy = none) :
    (∀ layout, (definition.gateOnField enable.name d.name).Compiles base orders layout ↔
      ∃ other, definition.Compiles base orders other ∧
        layout = other.withMode d.name (d.mode.getD .optional)) ∧
    (∀ layout, definition.Compiles base orders layout →
      ∃ field, layout.field? d.name = some field ∧
        field.mode = (d.mode.getD .required).gated) ∧
    (∀ layout, (definition.gateOnField enable.name d.name).Compiles base orders layout →
      ∃ field, layout.field? d.name = some field ∧ field.mode = d.mode.getD .optional) ∧
    (d.mode ≠ some .required → ∀ layout,
      (definition.gateOnField enable.name d.name).Compiles base orders layout ↔
        definition.Compiles base orders layout) := by
  have hsides {layout : Layout} :
      (definition.gateOnField enable.name d.name).Compiles base orders layout ↔ _ :=
    compiles_gateOnField henable hfield hlink hopen
  have hgated {layout : Layout} (h : definition.Compiles base orders layout) :
      ∃ field, layout.field? d.name = some field ∧ field.mode = (d.mode.getD .required).gated :=
    Yields.gated henable hfield hlink hopen (compiles_iff.mp h).1
  refine ⟨fun _ => hsides, fun _ => hgated, ?_, ?_⟩
  · intro layout h
    obtain ⟨other, hother, rfl⟩ := hsides.mp h
    obtain ⟨field, hfound, _⟩ := hgated hother
    exact ⟨_, Layout.field?_withMode hfound _, rfl⟩
  · intro hmode layout
    have hkept {other : Layout} (h : definition.Compiles base orders other) :
        other.withMode d.name (d.mode.getD .optional) = other := by
      obtain ⟨field, hfound, hfieldMode⟩ := hgated h
      rw [← Mode.gated_getD hmode, ← hfieldMode]
      exact h.realises.linked.withMode_eq_self hfound
    constructor
    · intro h
      obtain ⟨other, hother, rfl⟩ := hsides.mp h
      rw [hkept hother]
      exact hother
    · intro h
      exact hsides.mpr ⟨layout, h, (hkept h).symm⟩

end StructDef

/-! ## A reading with a gated level -/

namespace StructDef.Sample

/-- An enable that names the level which it gates. -/
def levelGate : Enable := { name := "gate", field := some "level" }

/-- A level that names no enable. -/
def gatedLevel (mode : Option Mode) : FieldDef :=
  ⟨"level", .leaf (.integer 8 true), mode, none, true, none, none⟩

/-- A reading in which the enable declares the gate. -/
def reading (mode : Option Mode) : StructDef where
  name := "reading"
  items := [.enable levelGate, .reserved { bits := 23 }, .field (gatedLevel mode)]
  dynamicSize := false
  strict := false

/-- The layout of a reading. -/
def readingLayout (mode : Mode) : Layout where
  name := "reading"
  slots :=
    [⟨.enable levelGate, ⟨0⟩, some 2⟩,
      ⟨.reserved { bits := 23 }, ⟨1⟩, none⟩,
      ⟨.field { name := "level", type := .leaf ⟨.integer 8 true, by decide⟩, mode,
                enabledBy := some "gate" }, ⟨24⟩, some 0⟩]
  bits := 32
  warnings := []
  dynamicSize := false

theorem levelGate_mem (mode : Option Mode) : .enable levelGate ∈ (reading mode).items :=
  List.mem_of_getElem? (i := 0) rfl

theorem gatedLevel_mem (mode : Option Mode) : .field (gatedLevel mode) ∈ (reading mode).items :=
  List.mem_of_getElem? (i := 2) rfl

/-- A mandatory level stays mandatory, on whichever side its gate is declared. -/
theorem mandatory_on_either_side :
    (.enable levelGate ∈ (reading (some .mandatory)).items ∧
      .field (gatedLevel (some .mandatory)) ∈ (reading (some .mandatory)).items ∧
      levelGate.field = some "level" ∧ (gatedLevel (some .mandatory)).enabledBy = none) ∧
    (reading (some .mandatory)).Compiles none [] (readingLayout .mandatory) ∧
      ((reading (some .mandatory)).gateOnField "gate" "level").Compiles none []
        (readingLayout .mandatory) := by
  have hgate := levelGate_mem (some .mandatory)
  have hlevel := gatedLevel_mem (some .mandatory)
  have hcompiles : (reading (some .mandatory)).Compiles none [] (readingLayout .mandatory) := rfl
  obtain ⟨_, _, _, hsame⟩ := gate_on_either_side none [] hgate hlevel rfl rfl
  exact ⟨⟨hgate, hlevel, rfl, rfl⟩, hcompiles, (hsame nofun _).mpr hcompiles⟩

/-- A level that is declared to be required is relaxed on one side only, and so is present in a new
container or not. -/
theorem required_on_one_side :
    (reading (some .required)).Compiles none [] (readingLayout .optional) ∧
      ((reading (some .required)).gateOnField "gate" "level").Compiles none []
        (readingLayout .required) ∧
      (Container.new (readingLayout .optional)).has "level" = .ok false ∧
      (Container.new (readingLayout .required)).has "level" = .ok true :=
  ⟨rfl, rfl, rfl, rfl⟩

end StructDef.Sample

end RadioPacket
