import RadioPacket.Proofs.Definition.Initialising

/-!
# Instances of definitions

An instance of a definition is a new container in which the configured values have been filled in.
This module says what each field of it shows, at every depth.  A configured field shows its value
and is no longer disabled.  A structure becomes present when a value inside it is configured, and
keeps its mode, also when it is disabled.  Everything else is as in a new container.
-/

namespace RadioPacket

/-- The structure at the end of a path of field names, present or not. -/
def Container.reach : Container → List String → Except ValueError Container
  | c, [] => .ok c
  | c, name :: path => do (← c.nested name).reach path

/-- What has become of a field at the end of a path: `c` is the structure around it in a new
container, and `filled` the one in the instance. -/
inductive ItemDef.Leaves (items : List ItemDef) (path : List String) (field : Field)
    (c filled : Container) (index : Nat) (link : Option Nat) : Prop
  | value {value : ValueDef} {scalar : Scalar} :
      Configures items path field.name value →
      (∀ other, Configures items path field.name other → other = value) →
      (∀ rest name value, ¬ Configures items (path ++ field.name :: rest) name value) →
      field.type.initial? value = some scalar →
      filled.cells[index]? = some (.leaf scalar field.mode.whenAssigned) →
      Cell.isOpen filled.cells link = true → Leaves items path field c filled index link
  | inside {rest : List String} {name : String} {value : ValueDef} {layout : Layout}
      {cells : List Cell} :
      Configures items (path ++ field.name :: rest) name value →
      (∀ other, ¬ Configures items path field.name other) → field.type = .record layout →
      filled.cells[index]? = some (.record cells field.mode) →
      Cell.isOpen filled.cells link = true → Leaves items path field c filled index link
  | nothing :
      (∀ value, ¬ Configures items path field.name value) →
      (∀ rest name value, ¬ Configures items (path ++ field.name :: rest) name value) →
      filled.cells[index]? = c.cells[index]? →
      Cell.isOpen filled.cells link = Cell.isOpen c.cells link →
      Leaves items path field c filled index link

namespace Container

variable {c : Container} {name : String} {index : Nat} {slot : Slot} {field : Field} {cell : Cell}

theorem read_field (h : c.layout.Finds name index slot field)
    (hcell : c.cells[index]? = some cell) : c.read name =
      .ok (if Cell.isOpen c.cells slot.link then some (field.type.valueOf cell) else none) := by
  rw [read, index_eq_ok h.named, Except.map, get?_field h.placed hcell h.item]

theorem has_field (h : c.layout.Finds name index slot field) (hcell : c.cells[index]? = some cell) :
    c.has name = .ok (Cell.isOpen c.cells slot.link) := by
  rw [has, read_field h hcell, Except.map]
  cases Cell.isOpen c.cells slot.link with
  | false => rfl
  | true => rfl

theorem mode_field (h : c.layout.Finds name index slot field)
    (hcell : c.cells[index]? = some cell) : c.mode name = .ok (cell.mode?.getD .disabled) := by
  rw [mode, modeIndex, h.named]
  simp only [Layout.slot?, h.placed, h.item, Option.bind_some, Item.field?, Except.map,
    modeAt_eq hcell]

theorem nested_field (h : c.layout.Finds name index slot field) {inner : Layout}
    (htype : field.type = .record inner) {cells : List Cell} {mode : Mode}
    (hcell : c.cells[index]? = some (.record cells mode)) : c.nested name = .ok ⟨inner, cells⟩ := by
  have hshown : slot.valueOf (.record cells mode) = .record ⟨inner, cells⟩ := by
    rw [Slot.valueOf, h.item]
    simp only [htype]
    rfl
  rw [nested, index_eq_ok h.named]
  change c.nestedAt index = _
  rw [nestedAt_eq h.placed hcell, hshown]

theorem new_cell {layout : Layout} (h : layout.Finds name index slot field) :
    (Container.new layout).cells[index]? = some (field.type.freshCell field.mode) := by
  rw [getElem?_new h.placed, Slot.freshCell, h.item]

theorem new_nested {layout inner : Layout} (h : layout.Finds name index slot field)
    (htype : field.type = .record inner) :
    (Container.new layout).nested name = .ok (.new inner) := by
  have hcell : (Container.new layout).cells[index]? =
      some (.record inner.freshCells field.mode) := by
    rw [new_cell h, htype, FieldType.freshCell]
  exact nested_field h htype hcell

theorem reach_cons {inner : Container} (h : c.nested name = .ok inner) (path : List String) :
    c.reach (name :: path) = inner.reach path := by
  rw [reach, h]
  rfl

theorem new_reach {layout : Layout} {path : List String}
    (h : layout.fieldAt? path name = some field) :
    ∃ around index slot, (Container.new layout).reach path = .ok (.new around) ∧
      around.Finds name index slot field := by
  induction path generalizing layout with
  | nil =>
      obtain ⟨index, slot, hfinds⟩ := Layout.field?_eq_some.mp h
      exact ⟨layout, index, slot, rfl, hfinds⟩
  | cons outer path ih =>
      obtain ⟨own, inner, hown, htype, hinner⟩ := Layout.fieldAt?_cons.mp h
      obtain ⟨around, index, slot, haround, hfinds⟩ := ih hinner
      obtain ⟨_, _, houter⟩ := Layout.field?_eq_some.mp hown
      exact ⟨around, index, slot, (reach_cons (new_nested houter htype) path).trans haround,
        hfinds⟩

end Container

namespace ItemDef

variable {items nested : List ItemDef} {path : List String} {field : Field}
  {c filled : Container} {index : Nat} {link : Option Nat}

theorem Leaves.under (h : Leaves nested path field c filled index link) {outer : String}
    (hinside : ∀ path name value,
      Configures items (outer :: path) name value ↔ Configures nested path name value) :
    Leaves items (outer :: path) field c filled index link := by
  cases h with
  | value hvalue hunique hrest hscalar hcell hopen =>
      refine .value ((hinside ..).mpr hvalue) ?_ ?_ hscalar hcell hopen
      · intro other hother
        exact hunique other ((hinside ..).mp hother)
      · intro rest name value hvalue
        exact hrest rest name value ((hinside ..).mp hvalue)
  | inside hvalue hnone htype hcell hopen =>
      refine .inside ((hinside ..).mpr hvalue) ?_ htype hcell hopen
      intro other hother
      exact hnone other ((hinside ..).mp hother)
  | nothing hown hrest hcell hopen =>
      refine .nothing ?_ ?_ hcell hopen
      · intro value hvalue
        exact hown value ((hinside ..).mp hvalue)
      · intro rest name value hvalue
        exact hrest rest name value ((hinside ..).mp hvalue)

theorem Sets.leaves {cell : Option Cell} (h : Sets items field cell) (hdistinct : Distinct items)
    (hcell : filled.cells[index]? = cell.or c.cells[index]?)
    (hopen : Cell.isOpen filled.cells link = (cell.isSome || Cell.isOpen c.cells link)) :
    Leaves items [] field c filled index link := by
  cases h with
  | undeclared hnone =>
      obtain ⟨hown, hinside⟩ := not_configures_of_undeclared hnone
      exact .nothing hown hinside hcell hopen
  | @declared d cell hd hname hkind hfills =>
      have hown (value : ValueDef) : Configures items [] field.name value ↔ d.value = some value :=
        hname ▸ configures_own hdistinct hd
      have hinside (rest : List String) (name : String) (value : ValueDef) :
          Configures items ([] ++ field.name :: rest) name value ↔
            ∃ inner, d.kind = .record inner ∧ Configures inner.items rest name value := by
        rw [List.nil_append, ← hname]
        exact configures_inside hdistinct hd
      cases hfills with
      | value hvalue _ hscalar =>
          refine .value ((hown _).mpr hvalue) ?_ ?_ hscalar hcell hopen
          · intro other hother
            exact Option.some.inj (((hown other).mp hother).symm.trans hvalue)
          · intro rest name value hconfigures
            obtain ⟨inner, hrecord, _⟩ := (hinside rest name value).mp hconfigures
            obtain ⟨layout, htype, _⟩ := hkind.of_record hrecord
            rw [htype] at hscalar
            cases hscalar
      | inside hvalue hinitialised htype hfill =>
          obtain ⟨inner, rest, name, value, hrecord, hconfigures⟩ :=
            d.kind.exists_configures hinitialised
          refine .inside ((hinside rest name value).mpr ⟨inner, hrecord, hconfigures⟩) ?_ htype
            hcell hopen
          intro other hother
          cases hvalue.symm.trans ((hown other).mp hother)
      | nothing hvalue hidle =>
          refine .nothing ?_ ?_ hcell hopen
          · intro value hconfigures
            cases hvalue.symm.trans ((hown value).mp hconfigures)
          · intro rest name value hconfigures
            obtain ⟨⟨_, _, _, _⟩, hrecord, hinner⟩ := (hinside rest name value).mp hconfigures
            rw [hrecord] at hidle
            cases hidle.symm.trans hinner.anyInitialised

end ItemDef

namespace Container

/-- A structure inside a filled one is still new and nothing is configured in it, or it has been
filled by a nested definition. -/
theorem FilledTo.nested_cases {layout inner : Layout} {items : List ItemDef} {filled : Container}
    (h : (Container.new layout).FilledTo filled items) (hrealises : layout.Realises items)
    {outer : String} {index : Nat} {slot : Slot} {own : Field}
    (hfinds : layout.Finds outer index slot own) (htype : own.type = .record inner) :
    (filled.nested outer = .ok (.new inner) ∧
      ∀ path name value, ¬ ItemDef.Configures items (outer :: path) name value) ∨
      ∃ (nested : StructDef) (changed : Container), inner.Realises nested.items ∧
        ItemDef.fillAll nested.items (.new inner) = .ok changed ∧
        filled.nested outer = .ok changed ∧ ∀ path name value,
          ItemDef.Configures items (outer :: path) name value ↔
            ItemDef.Configures nested.items path name value := by
  obtain ⟨cell, hsets, hcell, _⟩ := h.fields index slot own hfinds.placed hfinds.item
  have hfound : filled.layout.Finds outer index slot own := h.layout.symm ▸ hfinds
  have hkept (hnone : cell = none) : filled.nested outer = .ok (.new inner) := by
    have hnew : filled.cells[index]? = some (.record inner.freshCells own.mode) := by
      rw [hcell, hnone, Option.none_or, new_cell hfinds, htype, FieldType.freshCell]
    exact nested_field hfound htype hnew
  cases hsets with
  | undeclared hnone =>
      rw [hfinds.field_name] at hnone
      exact .inl ⟨hkept rfl, (ItemDef.not_configures_of_undeclared hnone).2⟩
  | @declared d cell hd hname hkind hfills =>
      obtain rfl := hname.trans hfinds.field_name
      rw [htype] at hkind
      obtain ⟨⟨nested, nestedItems, dynamicSize, strict⟩, hnested, hrealised⟩ := hkind.realises
      have hinside (path : List String) (name : String) (value : ValueDef) :
          ItemDef.Configures items (d.name :: path) name value ↔
            ItemDef.Configures nestedItems path name value := by
        rw [ItemDef.configures_inside hrealises.distinct hd, hnested]
        simp
      cases hfills with
      | value _ _ hscalar =>
          rw [htype] at hscalar
          cases hscalar
      | nothing _ hidle =>
          refine .inl ⟨hkept rfl, fun path name value hconfigures => ?_⟩
          rw [hnested] at hidle
          cases hidle.symm.trans ((hinside ..).mp hconfigures).anyInitialised
      | @inside _ changed _ _ hrecord hchanged =>
          cases htype.symm.trans hrecord
          rw [hnested] at hchanged
          have hlayout := ((awaits_new hrealised).filledTo hchanged).layout
          refine .inr ⟨_, changed, hrealised, hchanged, ?_, hinside⟩
          rw [nested_field hfound htype hcell]
          exact congrArg Except.ok (congrArg (Container.mk · changed.cells) hlayout.symm)

/-- What has become of any field, at any depth, after filling. -/
theorem filled_at {layout : Layout} {items : List ItemDef} (hrealises : layout.Realises items)
    {filled : Container} (hfill : ItemDef.fillAll items (.new layout) = .ok filled)
    {path : List String} {name : String} {field : Field}
    (hfield : layout.fieldAt? path name = some field) :
    ∃ around after index slot, (Container.new layout).reach path = .ok (.new around) ∧
      filled.reach path = .ok after ∧ after.layout = around ∧
      around.Finds name index slot field ∧
      ItemDef.Leaves items path field (.new around) after index slot.link := by
  have hfilledTo := (awaits_new hrealises).filledTo hfill
  induction path generalizing layout items filled with
  | nil =>
      obtain ⟨index, slot, hfinds⟩ := Layout.field?_eq_some.mp hfield
      obtain ⟨cell, hsets, hcell, hopen⟩ :=
        hfilledTo.fields index slot field hfinds.placed hfinds.item
      exact ⟨layout, filled, index, slot, rfl, rfl, hfilledTo.layout, hfinds,
        hsets.leaves hrealises.distinct hcell hopen⟩
  | cons outer path ih =>
      obtain ⟨own, inner, hown, htype, hinner⟩ := Layout.fieldAt?_cons.mp hfield
      obtain ⟨_, _, hfinds⟩ := Layout.field?_eq_some.mp hown
      have hnew := reach_cons (new_nested hfinds htype) path
      obtain ⟨hkept, hnothing⟩ | ⟨nested, changed, hrealised, hchanged, hentered, hinside⟩ :=
        hfilledTo.nested_cases hrealises hfinds htype
      · obtain ⟨around, index, slot, haround, hlast⟩ := new_reach hinner
        refine ⟨around, .new around, index, slot, hnew.trans haround,
          (reach_cons hkept path).trans haround, rfl, hlast, ?_⟩
        exact .nothing (hnothing path _) (fun rest => hnothing (path ++ field.name :: rest)) rfl rfl
      · obtain ⟨around, after, index, slot, haround, hafter, hlayout, hlast, hleaves⟩ :=
          ih hrealised hchanged hinner ((awaits_new hrealised).filledTo hchanged)
        exact ⟨around, after, index, slot, hnew.trans haround,
          (reach_cons hentered path).trans hafter, hlayout, hlast, hleaves.under hinside⟩

end Container

namespace StructDef

variable {definition : StructDef} {base : Option Layout} {orders : List Workshop.Order}
  {layout : Layout}

/-- What an instance shows in a field at the end of a path; `fresh` is the structure around it in a
new container, and `filled` the one in the instance. -/
structure Shows (definition : StructDef) (path : List String) (name : String) (field : Field)
    (fresh filled : Container) : Prop where
  configured : ∀ value, ItemDef.Configures definition.items path name value →
    ∃ scalar, field.type.initial? value = some scalar ∧
      filled.read name = .ok (some (.scalar scalar))
  left_alone : (∀ value, ¬ ItemDef.Configures definition.items path name value) →
    ∀ type, field.type = .leaf type → filled.read name = fresh.read name
  entered : ∀ rest last value,
    ItemDef.Configures definition.items (path ++ name :: rest) last value →
      filled.has name = .ok true
  not_entered : ∀ inner, field.type = .record inner →
    (∀ rest last value,
      ¬ ItemDef.Configures definition.items (path ++ name :: rest) last value) →
        filled.has name = fresh.has name

/-- What has become of a field decides what the instance shows in it. -/
theorem shows_of_leaves {path : List String} {field : Field} {fresh filled : Container}
    {index : Nat} {slot : Slot} (hfresh : fresh.layout.Finds field.name index slot field)
    (hfilled : filled.layout.Finds field.name index slot field)
    (hnew : fresh.cells[index]? = some (field.type.freshCell field.mode))
    (hleaves : ItemDef.Leaves definition.items path field fresh filled index slot.link) :
    definition.Shows path field.name field fresh filled := by
  cases hleaves with
  | @value value scalar hvalue hunique hrest hscalar hcell hopen =>
      have hread : filled.read field.name = .ok (some (.scalar scalar)) := by
        rw [Container.read_field hfilled hcell, if_pos hopen]
        cases field.type <;> rfl
      constructor
      · intro other hother
        obtain rfl := hunique other hother
        exact ⟨scalar, hscalar, hread⟩
      · exact fun hnone => absurd hvalue (hnone value)
      · exact fun rest last value hinside => absurd hinside (hrest rest last value)
      · intro inner htype
        rw [htype] at hscalar
        cases hscalar
  | inside hvalue hnone htype hcell hopen =>
      have hpresent : filled.has field.name = .ok true := by
        rw [Container.has_field hfilled hcell, hopen]
      constructor
      · exact fun value hown => absurd hown (hnone value)
      · intro _ type hleaf
        cases htype.symm.trans hleaf
      · exact fun _ _ _ _ => hpresent
      · exact fun _ _ hidle => absurd hvalue (hidle _ _ _)
  | nothing hnone hrest hcell hopen =>
      have hsame : filled.read field.name = fresh.read field.name := by
        rw [Container.read_field hfilled (hcell.trans hnew), Container.read_field hfresh hnew,
          hopen]
      constructor
      · exact fun value hown => absurd hown (hnone value)
      · exact fun _ _ _ => hsame
      · exact fun rest last value hinside => absurd hinside (hrest rest last value)
      · intro _ _ _
        rw [Container.has, Container.has, hsame]

/-- An instance can be made exactly when each configured value is one that its field takes, by a
field that is editable, and the values are to blame otherwise.  In an instance each configured field
is present with what its value stands for, a structure is present if a value is configured inside
it, and everything else reads as in a new container. -/
theorem instantiate_outcome (h : definition.Compiles base orders layout) :
    ((∃ c, definition.instantiate layout = .ok c) ↔
      ∀ path name value, ItemDef.Configures definition.items path name value →
        layout.Admits path name value) ∧
    (∀ error, definition.instantiate layout = .error error → ∃ cause, error = .value cause) ∧
    ∀ c, definition.instantiate layout = .ok c → ∀ path name field,
      layout.fieldAt? path name = some field →
      ∃ fresh filled, (Container.new layout).reach path = .ok fresh ∧
        c.reach path = .ok filled ∧ definition.Shows path name field fresh filled := by
  have hrealises := h.realises
  refine ⟨hrealises.fillAll_isOk_iff, ?_, ?_⟩
  · intro error herror
    exact (ItemDef.fillAll_error definition.items (Container.awaits_new hrealises) herror).1
  · intro c hfill path name field hfield
    obtain ⟨around, after, index, slot, hfresh, hafter, rfl, hfinds, hleaves⟩ :=
      Container.filled_at hrealises hfill hfield
    obtain rfl := hfinds.field_name
    exact ⟨.new after.layout, after, hfresh, hafter,
      shows_of_leaves hfinds hfinds (Container.new_cell hfinds) hleaves⟩

/-- A field with a configured value is present and is no longer disabled.  A structure with a value
inside it is present, but its mode is the declared one, like that of all fields without a value of
their own. -/
theorem instantiate_modes (h : definition.Compiles base orders layout) :
    ∀ c, definition.instantiate layout = .ok c → ∀ path name field,
      layout.fieldAt? path name = some field →
      ∃ filled, c.reach path = .ok filled ∧
        (∀ value, ItemDef.Configures definition.items path name value →
          filled.has name = .ok true ∧ filled.mode name = .ok field.mode.whenAssigned) ∧
        (∀ rest last value,
          ItemDef.Configures definition.items (path ++ name :: rest) last value →
            filled.has name = .ok true ∧ filled.mode name = .ok field.mode) ∧
        ((∀ value, ¬ ItemDef.Configures definition.items path name value) →
          filled.mode name = .ok field.mode) := by
  intro c hinstance path name field hfield
  have hrealises := h.realises
  obtain ⟨around, filled, index, slot, _, hafter, rfl, hfinds, hleaves⟩ :=
    Container.filled_at hrealises hinstance hfield
  obtain rfl := hfinds.field_name
  refine ⟨filled, hafter, ?_⟩
  cases hleaves with
  | @value value scalar hvalue _ hrest _ hcell hopen =>
      have hpresent : filled.has field.name = .ok true := by
        rw [Container.has_field hfinds hcell, hopen]
      refine ⟨fun _ _ => ⟨hpresent, Container.mode_field hfinds hcell⟩, ?_, ?_⟩
      · exact fun rest last inner hinside => absurd hinside (hrest rest last inner)
      · exact fun hnone => absurd hvalue (hnone value)
  | inside hvalue hnone _ hcell hopen =>
      have hpresent : filled.has field.name = .ok true := by
        rw [Container.has_field hfinds hcell, hopen]
      have hmode : filled.mode field.name = .ok field.mode := Container.mode_field hfinds hcell
      exact ⟨fun value hown => absurd hown (hnone value), fun _ _ _ _ => ⟨hpresent, hmode⟩,
        fun _ => hmode⟩
  | nothing hnone hrest hcell hopen =>
      refine ⟨fun value hown => absurd hown (hnone value),
        fun rest last value hinside => absurd hinside (hrest rest last value), fun _ => ?_⟩
      rw [Container.mode_field hfinds (hcell.trans (Container.new_cell hfinds)),
        FieldType.mode?_freshCell, Option.getD_some]

end StructDef

/-! ## A report with a part that is not used -/

namespace StructDef.Sample

/-- A level, set to five. -/
def level : FieldDef :=
  ⟨"level", .leaf (.integer 8 false), none, none, true, none, some (.scalar (.unsigned 5))⟩

/-- A gated structure that is not used, with a level. -/
def part : FieldDef :=
  ⟨"part", .record ⟨"part", [.field level], false, false⟩, some .disabled, some "gate", true, none,
    none⟩

/-- A limit that is not used, set to three. -/
def limit : FieldDef :=
  ⟨"limit", .leaf (.integer 16 false), some .disabled, none, true, none,
    some (.scalar (.unsigned 3))⟩

/-- A report with a part and a limit. -/
def report : StructDef where
  name := "report"
  items := [.enable { name := "gate" }, .reserved { bits := 7 }, .field part, .field limit]
  dynamicSize := false
  strict := false

theorem configures_level :
    ItemDef.Configures report.items ["part"] "level" (.scalar (.unsigned 5)) :=
  have hpart : ItemDef.field part ∈ report.items := List.mem_of_getElem? (i := 2) rfl
  .inside hpart rfl (.own (d := level) List.mem_cons_self rfl)

theorem configures_limit :
    ItemDef.Configures report.items [] "limit" (.scalar (.unsigned 3)) :=
  have hlimit : ItemDef.field limit ∈ report.items := List.mem_of_getElem? (i := 3) rfl
  .own hlimit rfl

/-- The type of a level. -/
def octet : LeafType := ⟨.integer 8 false, by decide⟩

/-- The type of a limit. -/
def half : LeafType := ⟨.integer 16 false, by decide⟩

/-- The layout inside a part. -/
def partLayout : Layout where
  name := "part"
  slots := [⟨.field { name := "level", type := .leaf octet }, ⟨0⟩, none⟩]
  bits := 8
  warnings := [.size "part" 8]
  dynamicSize := false

/-- The layout of `report`. -/
def reportLayout : Layout where
  name := "report"
  slots :=
    [⟨.enable { name := "gate", field := some "part" }, ⟨0⟩, some 2⟩,
      ⟨.reserved { bits := 7 }, ⟨1⟩, none⟩,
      ⟨.field { name := "part", type := .record partLayout, mode := .disabled,
                enabledBy := some "gate" }, ⟨8⟩, some 0⟩,
      ⟨.field { name := "limit", type := .leaf half, mode := .disabled }, ⟨16⟩, none⟩]
  bits := 32
  warnings := []
  dynamicSize := false

theorem compile_report : report.Compiles none [] reportLayout := rfl

/-- In the instance of a report the level inside the part is set, and the part is there. -/
theorem instantiate_report :
    report.Compiles none [] reportLayout ∧
      ∃ c filled, report.instantiate reportLayout = .ok c ∧ c.has "part" = .ok true ∧
        c.reach ["part"] = .ok filled ∧
        filled.read "level" = .ok (some (.scalar (.unsigned 5))) := by
  refine ⟨compile_report, ?_⟩
  obtain ⟨_, _, hshows⟩ := instantiate_outcome compile_report
  obtain ⟨c, hinstance⟩ : ∃ c, report.instantiate reportLayout = .ok c := ⟨_, rfl⟩
  obtain ⟨_, filled, _, hfilled, hlevel⟩ := hshows c hinstance ["part"] "level" _ rfl
  obtain ⟨_, outer, _, houter, hpart⟩ := hshows c hinstance [] "part" _ rfl
  obtain ⟨scalar, hscalar, hread⟩ := hlevel.configured _ configures_level
  cases hscalar
  cases houter
  exact ⟨c, filled, hinstance, hpart.entered [] "level" _ configures_level, hfilled, hread⟩

/-- The limit of a report becomes required, and its part is present and still disabled. -/
theorem modes_of_report :
    report.Compiles none [] reportLayout ∧
      ∃ c, report.instantiate reportLayout = .ok c ∧ c.has "limit" = .ok true ∧
        c.mode "limit" = .ok .required ∧ c.has "part" = .ok true ∧
        c.mode "part" = .ok .disabled := by
  refine ⟨compile_report, ?_⟩
  obtain ⟨c, hinstance⟩ : ∃ c, report.instantiate reportLayout = .ok c := ⟨_, rfl⟩
  have hmodes := instantiate_modes compile_report c hinstance
  obtain ⟨outer, houter, hown, _⟩ := hmodes [] "limit" _ rfl
  obtain ⟨other, hother, _, hentered, _⟩ := hmodes [] "part" _ rfl
  cases houter
  cases hother
  obtain ⟨hshown, hmode⟩ := hown _ configures_limit
  obtain ⟨hpresent, hkept⟩ := hentered [] "level" _ configures_level
  exact ⟨c, hinstance, hshown, hmode, hpresent, hkept⟩

/-- A value inside a disabled part does not make the part required. -/
theorem configured_part_stays_disabled :
    report.Compiles none [] reportLayout ∧
      ItemDef.Configures report.items ["part"] "level" (.scalar (.unsigned 5)) ∧
      ∃ c, report.instantiate reportLayout = .ok c ∧ c.mode "part" = .ok .disabled :=
  ⟨compile_report, configures_level, _, rfl, rfl⟩

/-- A read-only level with an initial value. -/
def gauge : StructDef where
  name := "gauge"
  items :=
    [.field ⟨"level", .leaf (.integer 8 false), none, none, false, none,
      some (.scalar (.unsigned 7))⟩]
  dynamicSize := false
  strict := false

/-- The layout of `gauge`. -/
def gaugeLayout : Layout where
  name := "gauge"
  slots := [⟨.field { name := "level", type := .leaf octet, editable := false }, ⟨0⟩, none⟩]
  bits := 8
  warnings := [.size "gauge" 8]
  dynamicSize := false

/-- The one value that is configured for a gauge is one of its leaf, and still it is refused. -/
theorem gauge_not_instantiated :
    gauge.Compiles none [] gaugeLayout ∧
      (∀ path name value, ItemDef.Configures gauge.items path name value →
        ∃ field, gaugeLayout.fieldAt? path name = some field ∧
          (field.type.initial? value).isSome = true) ∧
      gauge.instantiate gaugeLayout = .error (.value (.readOnly "level")) := by
  refine ⟨rfl, ?_, rfl⟩
  rintro path name value (⟨hd, hvalue⟩ | ⟨hd, hkind, _⟩)
  · cases List.mem_singleton.mp hd
    cases hvalue
    exact ⟨_, rfl, rfl⟩
  · cases List.mem_singleton.mp hd
    cases hkind

end StructDef.Sample

end RadioPacket
