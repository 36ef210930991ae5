import RadioPacket.Proofs.Definition.Filling

/-!
# Filling a whole structure

What is configured for a structure is said by paths of field names, and what each field has to
become by its definition.  Filling a new container comes to its end exactly when every configured
value is admitted where it is configured, and it then leaves each field as its definition says.
-/

namespace RadioPacket

/-! ## What is configured -/

namespace ItemDef

variable {items : List ItemDef} {item : ItemDef} {path : List String} {name : String}
  {value : ValueDef} {d : FieldDef}

theorem Configures.cons (h : Configures items path name value) :
    Configures (item :: items) path name value := by
  cases h with
  | own hmem hvalue => exact .own (List.mem_cons_of_mem item hmem) hvalue
  | inside hmem hkind hinner => exact .inside (List.mem_cons_of_mem item hmem) hkind hinner

theorem configures_own (h : Distinct items) (hd : .field d ∈ items) :
    Configures items [] d.name value ↔ d.value = some value := by
  constructor
  · intro hconfigures
    generalize hname : d.name = name at hconfigures
    cases hconfigures with
    | own hmem hvalue => rwa [h.field_eq hd hmem hname]
  · exact Configures.own hd

theorem configures_inside (h : Distinct items) (hd : .field d ∈ items) :
    Configures items (d.name :: path) name value ↔
      ∃ inner, d.kind = .record inner ∧ Configures inner.items path name value := by
  constructor
  · intro hconfigures
    generalize houter : d.name = outer at hconfigures
    cases hconfigures with
    | inside hmem hkind hinner =>
        obtain rfl := h.field_eq hd hmem houter
        exact ⟨_, hkind, hinner⟩
  · rintro ⟨inner, hkind, hinner⟩
    exact .inside hd hkind hinner

theorem not_configures_of_undeclared (h : ∀ d, ItemDef.field d ∈ items → d.name ≠ name) :
    (∀ value, ¬ Configures items [] name value) ∧
      ∀ path inner value, ¬ Configures items (name :: path) inner value := by
  constructor
  · rintro value ⟨⟩
    exact h _ ‹_› rfl
  · rintro path inner value ⟨⟩
    exact h _ ‹_› rfl

theorem anyInitialised_of_mem (hd : .field d ∈ items)
    (h : d.value.isSome = true ∨ d.kind.isInitialised = true) : anyInitialised items = true := by
  induction items with
  | nil => cases hd
  | cons item items ih =>
      rcases List.mem_cons.mp hd with rfl | hmem
      · obtain ⟨name, kind, mode, enabledBy, editable, position, value⟩ := d
        rw [anyInitialised, Bool.or_eq_true, Bool.or_eq_true]
        exact .inl h
      · cases item with
        | field first =>
            obtain ⟨name, kind, mode, enabledBy, editable, position, value⟩ := first
            rw [anyInitialised, ih hmem, Bool.or_true]
        | enable gate => exact ih hmem
        | reserved run => exact ih hmem

theorem Configures.anyInitialised (h : Configures items path name value) :
    anyInitialised items = true := by
  induction h with
  | own hmem hvalue => exact anyInitialised_of_mem hmem (.inl (Option.isSome_of_eq_some hvalue))
  | @inside items d inner path name value hmem hkind _ ih =>
      refine anyInitialised_of_mem hmem (.inr ?_)
      obtain ⟨outer, items, dynamicSize, strict⟩ := inner
      rw [hkind]
      exact ih

end ItemDef

/-! ## All fields of a structure -/

/-- A container of a layout that realises the items, in which the fields that they declare are still
new. -/
structure Container.Awaits (c : Container) (items : List ItemDef) : Prop where
  realises : c.layout.Realises items
  length : c.cells.length = c.layout.slots.length
  fresh : ∀ d, ItemDef.field d ∈ items → ∀ (index : Nat) (slot : Slot) (field : Field),
    c.layout.slots[index]? = some slot → slot.item = .field field → field.name = d.name →
      c.cells[index]? = some (field.type.freshCell field.mode)

/-- What items make of a new field: it is declared by one of them, or by none. -/
inductive ItemDef.Sets (items : List ItemDef) (field : Field) : Option Cell → Prop
  | declared {d : FieldDef} {cell : Option Cell} :
      .field d ∈ items → d.name = field.name → d.kind.Yields field.type → d.Fills field cell →
      Sets items field cell
  | undeclared : (∀ d, ItemDef.field d ∈ items → d.name ≠ field.name) → Sets items field none

namespace Container

variable {c : Container} {items : List ItemDef} {item : ItemDef} {d : FieldDef} {index : Nat}
  {slot : Slot} {field : Field}

theorem awaits_new {layout : Layout} (h : layout.Realises items) :
    (Container.new layout).Awaits items where
  realises := h
  length := by rw [new, layout.freshCells_eq_map, List.length_map]
  fresh d _ index slot field hslot hfield _ := by
    have hcell : (Container.new layout).cells[index]? = some (slot.freshCell layout.slots) :=
      getElem?_new hslot
    rw [hcell, Slot.freshCell, hfield]

theorem Awaits.tail (h : c.Awaits (item :: items)) : c.Awaits items where
  realises := h.realises.tail
  length := h.length
  fresh d hd := h.fresh d (List.mem_cons_of_mem item hd)

theorem Awaits.index_eq (h : c.Awaits items) {i j : Nat} {a b : Slot} {f g : Field}
    (ha : c.layout.slots[i]? = some a) (hb : c.layout.slots[j]? = some b)
    (hf : a.item = .field f) (hg : b.item = .field g) (hname : f.name = g.name) : i = j := by
  have hfirst : a.item.name? = some g.name := by rw [hf, Item.name?, hname]
  have hsecond : b.item.name? = some g.name := by rw [hg, Item.name?]
  exact Item.index_eq_of_name? h.realises.linked.names (Layout.getElem?_items ha)
    (Layout.getElem?_items hb) hfirst hsecond

/-- Filling one field leaves the cell and the presence of every other field alone. -/
theorem spares_fillAt? (h : c.layout.Matched) (hslot : c.layout.slots[index]? = some slot)
    (hfield : slot.item = .field field) {other : Nat} {found : Slot} {own : Field}
    (hfound : c.layout.slots[other]? = some found) (hown : found.item = .field own)
    (hne : other ≠ index) (cell : Option Cell) :
    (c.fillAt? index slot.link cell).cells[other]? = c.cells[other]? ∧
      Cell.isOpen (c.fillAt? index slot.link cell).cells found.link =
        Cell.isOpen c.cells found.link := by
  cases cell with
  | none => exact ⟨rfl, rfl⟩
  | some cell =>
      rw [fillAt?, fillAt_eq_apply]
      have hlink : slot.link ≠ some other := by
        intro hlink
        obtain ⟨gate, enable, _, hgate, hsides, _⟩ := h.couples index other slot hslot hlink
        obtain rfl := Option.some.inj (hfound.symm.trans hgate)
        simp only [hfield, hown, reduceCtorEq, and_false, false_and, or_self] at hsides
      exact ⟨Effect.getElem?_apply_of_ne hne.symm hlink,
        Effect.isOpen_apply_of_ne h hslot hfound hne hlink⟩

theorem fillAt?_self (hlinked : c.layout.Linked) (hlength : c.cells.length = c.layout.slots.length)
    (hslot : c.layout.slots[index]? = some slot) (cell : Option Cell) :
    (c.fillAt? index slot.link cell).cells[index]? = cell.or c.cells[index]? ∧
      Cell.isOpen (c.fillAt? index slot.link cell).cells slot.link =
        (cell.isSome || Cell.isOpen c.cells slot.link) := by
  cases cell with
  | none => exact ⟨rfl, rfl⟩
  | some cell =>
      have hself := hlinked.matched.link_ne_self hslot
      obtain ⟨hlt, _⟩ := List.getElem?_eq_some_iff.mp hslot
      have hold := List.getElem?_eq_getElem (hlength.symm ▸ hlt)
      refine ⟨getElem?_fillAt_self hself hold cell, ?_⟩
      rw [Option.isSome_some, Bool.true_or]
      rcases hlink : slot.link with _ | gate
      · rfl
      · obtain ⟨linked, _, _, hgate, _⟩ := hlinked.matched.couples index gate slot hslot hlink
        obtain ⟨hgatelt, _⟩ := List.getElem?_eq_some_iff.mp hgate
        rw [Cell.isOpen]
        refine Cell.isSetAt_eq ?_
        rw [fillAt?, fillAt, mark, put, put, List.getElem?_set_self]
        simpa [hlength] using hgatelt

/-- After the first field has been filled, the others are still new. -/
theorem Awaits.fillAt? (h : c.Awaits (.field d :: items))
    (hslot : c.layout.slots[index]? = some slot) (hfield : slot.item = .field field)
    (hname : field.name = d.name) (cell : Option Cell) :
    (c.fillAt? index slot.link cell).Awaits items where
  realises := by
    rw [layout_fillAt?]
    exact h.realises.tail
  length := by
    rw [layout_fillAt?, ← h.length]
    cases cell with
    | none => rfl
    | some cell =>
        rw [Container.fillAt?, fillAt_eq_apply]
        exact Effect.length_apply
  fresh other hother i found own hfound hown hownname := by
    rw [layout_fillAt?] at hfound
    have hne : i ≠ index := by
      rintro rfl
      obtain rfl := Option.some.inj (hfound.symm.trans hslot)
      cases hown.symm.trans hfield
      exact h.realises.distinct.name?_ne_head hother rfl (congrArg some (hname.symm.trans hownname))
    rw [(spares_fillAt? h.realises.linked.matched hslot hfield hfound hown hne cell).1]
    exact h.tail.fresh other hother i found own hfound hown hownname

theorem Awaits.head (h : c.Awaits (.field d :: items)) :
    ∃ (index : Nat) (slot : Slot) (field : Field), c.layout.slots[index]? = some slot ∧
      slot.item = .field field ∧ field.name = d.name ∧ d.kind.Yields field.type ∧
      d.fill c = (d.filled field).map (c.fillAt? index slot.link) := by
  obtain ⟨slot, hmem, field, hfield, hname, _, hkind⟩ := h.realises.fields d List.mem_cons_self
  obtain ⟨index, hslot⟩ := List.getElem?_of_mem hmem
  have hnamed : slot.name? = some d.name := by rw [Slot.name?, hfield, Item.name?, hname]
  refine ⟨index, slot, field, hslot, hfield, hname, hkind, ?_⟩
  have hindex := (Layout.index?_eq_some_of_nodup h.realises.linked.names).mpr ⟨slot, hslot, hnamed⟩
  exact fill_eq hindex hslot hfield
    (h.realises.linked.matched.link_ne_self hslot)
    (h.fresh d List.mem_cons_self index slot field hslot hfield hname) hkind

/-- What filling makes of a container, field by field. -/
structure FilledTo (c filled : Container) (items : List ItemDef) : Prop where
  layout : filled.layout = c.layout
  fields : ∀ (index : Nat) (slot : Slot) (field : Field), c.layout.slots[index]? = some slot →
    slot.item = .field field → ∃ cell, ItemDef.Sets items field cell ∧
      filled.cells[index]? = cell.or c.cells[index]? ∧
      Cell.isOpen filled.cells slot.link = (cell.isSome || Cell.isOpen c.cells slot.link)

theorem FilledTo.skip {filled : Container} (h : c.FilledTo filled items)
    (hitem : ∀ d, item ≠ .field d) : c.FilledTo filled (item :: items) where
  layout := h.layout
  fields index slot field hslot hfield := by
    obtain ⟨cell, hsets, hcell⟩ := h.fields index slot field hslot hfield
    refine ⟨cell, ?_, hcell⟩
    cases hsets with
    | declared hmem hname hkind hfills =>
        exact .declared (List.mem_cons_of_mem item hmem) hname hkind hfills
    | undeclared hnone =>
        refine .undeclared fun d hd => ?_
        rcases List.mem_cons.mp hd with heq | hd
        · exact absurd heq.symm (hitem d)
        · exact hnone d hd

/-- Filling the first field and then the others fills all of them. -/
theorem Awaits.filledTo_cons (h : c.Awaits (.field d :: items)) {filled : Container}
    (hslot : c.layout.slots[index]? = some slot) (hfield : slot.item = .field field)
    (hname : field.name = d.name) (hkind : d.kind.Yields field.type) {cell : Option Cell}
    (hfills : d.Fills field cell)
    (hrest : (c.fillAt? index slot.link cell).FilledTo filled items) :
    c.FilledTo filled (.field d :: items) where
  layout := hrest.layout.trans (layout_fillAt? ..)
  fields other found own hfound hown := by
    obtain ⟨last, hsets, hcell, hopen⟩ :=
      hrest.fields other found own ((layout_fillAt? ..).symm ▸ hfound) hown
    by_cases hsame : other = index
    · subst hsame
      obtain rfl := Option.some.inj (hfound.symm.trans hslot)
      cases hown.symm.trans hfield
      -- No later item has the name of the first one.
      have hidle : last = none := by
        cases hsets with
        | declared hmem hown _ _ =>
            exact absurd (congrArg some (hname.symm.trans hown.symm))
              (h.realises.distinct.name?_ne_head hmem rfl)
        | undeclared _ => rfl
      obtain ⟨hself, hshown⟩ := fillAt?_self h.realises.linked h.length hslot cell
      refine ⟨cell, .declared List.mem_cons_self hname.symm hkind hfills, ?_, ?_⟩
      · rw [hcell, hidle, hself, Option.none_or]
      · rw [hopen, hidle, hshown, Option.isSome_none, Bool.false_or]
    · obtain ⟨hkept, hshown⟩ :=
        spares_fillAt? h.realises.linked.matched hslot hfield hfound hown hsame cell
      refine ⟨last, ?_, hkept ▸ hcell, hshown ▸ hopen⟩
      cases hsets with
      | declared hmem hownname hownkind hownfills =>
          exact .declared (List.mem_cons_of_mem _ hmem) hownname hownkind hownfills
      | undeclared hnone =>
          refine .undeclared fun e he => ?_
          rcases List.mem_cons.mp he with heq | he
          · cases heq
            intro heq
            exact hsame (h.index_eq hfound hslot hown hfield (heq.symm.trans hname.symm))
          · exact hnone e he

/-- A container that was filled holds what each definition makes of its field. -/
theorem Awaits.filledTo {filled : Container} (h : c.Awaits items)
    (hfill : ItemDef.fillAll items c = .ok filled) : c.FilledTo filled items := by
  induction items generalizing c with
  | nil =>
      cases hfill
      exact ⟨rfl, fun index slot field _ _ => ⟨none, .undeclared (by rintro d ⟨⟩), rfl, rfl⟩⟩
  | cons item items ih =>
      cases item with
      | enable gate => exact (ih h.tail hfill).skip (by rintro d ⟨⟩)
      | reserved run => exact (ih h.tail hfill).skip (by rintro d ⟨⟩)
      | field d =>
          rw [ItemDef.fillAll_field] at hfill
          obtain ⟨first, hfirst, hrest⟩ := Fallible.bind_eq_ok.mp hfill
          obtain ⟨index, slot, field, hslot, hfield, hname, hkind, heq⟩ := h.head
          rw [heq] at hfirst
          obtain ⟨cell, hcell, rfl⟩ := Fallible.map_eq_ok.mp hfirst
          obtain ⟨made, hmade, hfills⟩ | ⟨error, herror, _⟩ := FieldDef.filled_cases hkind
          · obtain rfl := Except.ok.inj (hcell.symm.trans hmade)
            exact h.filledTo_cons hslot hfield hname hkind hfills
              (ih (h.fillAt? hslot hfield hname cell) hrest)
          · cases hcell.symm.trans herror

end Container

/-! ## Structures inside structures -/

mutual

theorem TypeDef.exists_configures (kind : TypeDef) (h : kind.isInitialised = true) :
    ∃ inner path name value, kind = .record inner ∧
      ItemDef.Configures inner.items path name value := by
  match kind with
  | .leaf shape => cases h
  | .record ⟨name, items, dynamicSize, strict⟩ =>
      obtain ⟨path, field, value, hconfigures⟩ := ItemDef.exists_configures items h
      exact ⟨_, path, field, value, rfl, hconfigures⟩
termination_by structural kind

theorem ItemDef.exists_configures (items : List ItemDef) (h : ItemDef.anyInitialised items = true) :
    ∃ path name value, ItemDef.Configures items path name value := by
  match items with
  | [] => cases h
  | .field ⟨name, kind, mode, enabledBy, editable, position, value⟩ :: items =>
      rw [ItemDef.anyInitialised, Bool.or_eq_true, Bool.or_eq_true] at h
      rcases h with (hvalue | hkind) | hrest
      · obtain ⟨own, hown⟩ := Option.isSome_iff_exists.mp hvalue
        exact ⟨[], name, own, .own List.mem_cons_self hown⟩
      · obtain ⟨inner, path, field, own, hinner, hconfigures⟩ := kind.exists_configures hkind
        exact ⟨name :: path, field, own, .inside List.mem_cons_self hinner hconfigures⟩
      · obtain ⟨path, field, own, hconfigures⟩ := ItemDef.exists_configures items hrest
        exact ⟨path, field, own, hconfigures.cons⟩
  | .enable gate :: items =>
      obtain ⟨path, field, own, hconfigures⟩ := ItemDef.exists_configures items h
      exact ⟨path, field, own, hconfigures.cons⟩
  | .reserved run :: items =>
      obtain ⟨path, field, own, hconfigures⟩ := ItemDef.exists_configures items h
      exact ⟨path, field, own, hconfigures.cons⟩
termination_by structural items

end

/-! ## Fields by their paths -/

namespace Layout

variable {layout inner : Layout} {field outer : Field} {name : String} {path : List String}
  {value : ValueDef}

theorem fieldAt?_cons {layout : Layout} {last : String} :
    layout.fieldAt? (name :: path) last = some field ↔
      ∃ outer inner, layout.field? name = some outer ∧ outer.type = .record inner ∧
        inner.fieldAt? path last = some field := by
  have hrecord (type : FieldType) (inner : Layout) :
      type.record? = some inner ↔ type = .record inner := by
    cases type with
    | leaf type => simp [FieldType.record?]
    | record layout => simp [FieldType.record?]
  simp only [fieldAt?, Option.bind_eq_bind, Option.bind_eq_some_iff, hrecord, exists_and_left]

theorem fieldAt?_inside (houter : layout.field? name = some outer)
    (htype : outer.type = .record inner) (path : List String) (last : String) :
    layout.fieldAt? (name :: path) last = inner.fieldAt? path last := by
  simp only [fieldAt?, houter, Option.bind_eq_bind, Option.bind_some, htype, FieldType.record?]

theorem admits_inside (houter : layout.field? name = some outer)
    (htype : outer.type = .record inner) (path : List String) (last : String) :
    layout.Admits (name :: path) last value ↔ inner.Admits path last value := by
  rw [Admits, Admits, fieldAt?_inside houter htype]

end Layout

/-! ## When filling succeeds -/

/-- Some value is configured that the layout does not admit. -/
def ItemDef.Illegal (items : List ItemDef) (layout : Layout) : Prop :=
  ∃ path name value, ItemDef.Configures items path name value ∧ ¬ layout.Admits path name value

theorem ItemDef.Illegal.cons {items : List ItemDef} {item : ItemDef} {layout : Layout}
    (h : ItemDef.Illegal items layout) : ItemDef.Illegal (item :: items) layout := by
  obtain ⟨path, name, value, hconfigures, hrefused⟩ := h
  exact ⟨path, name, value, hconfigures.cons, hrefused⟩

theorem FieldDef.Fails.illegal {d : FieldDef} {items : List ItemDef} {layout : Layout}
    {field : Field} {error : OperationError} (h : d.Fails field error)
    (hd : ItemDef.field d ∈ items) (hfield : layout.field? d.name = some field)
    (hinside : ∀ inner, field.type = .record inner → d.kind.fill (.new inner) = .error error →
      (∃ cause, error = .value cause) ∧
        ∃ nested, d.kind = .record nested ∧ ItemDef.Illegal nested.items inner) :
    (∃ cause, error = .value cause) ∧ ItemDef.Illegal items layout := by
  cases h with
  | inside htype herror =>
      obtain ⟨hcause, nested, hkind, path, name, value, hconfigures, hrefused⟩ :=
        hinside _ htype herror
      refine ⟨hcause, d.name :: path, name, value, .inside hd hkind hconfigures, ?_⟩
      rwa [Layout.admits_inside hfield htype]
  | value hvalue hrefused =>
      refine ⟨⟨_, rfl⟩, [], d.name, _, .own hd hvalue, ?_⟩
      rintro ⟨found, hfound, hlegal⟩
      obtain rfl := Option.some.inj (hfield.symm.trans hfound)
      exact hrefused hlegal

mutual

/-- Filling a nested structure succeeds, or fails with a value error at an illegal value. -/
theorem TypeDef.fill_error (kind : TypeDef) {layout : Layout} (hkind : kind.Yields (.record layout))
    {error : OperationError} (h : kind.fill (.new layout) = .error error) :
    (∃ cause, error = .value cause) ∧
      ∃ nested, kind = .record nested ∧ ItemDef.Illegal nested.items layout := by
  match kind with
  | .leaf shape => cases h
  | .record ⟨name, items, dynamicSize, strict⟩ =>
      obtain ⟨nested, hnested, hrealises⟩ := hkind.realises
      cases hnested
      obtain ⟨hcause, hillegal⟩ := ItemDef.fillAll_error items (Container.awaits_new hrealises) h
      exact ⟨hcause, _, rfl, hillegal⟩
termination_by structural kind

theorem ItemDef.fillAll_error (items : List ItemDef) {c : Container} (hawaits : c.Awaits items)
    {error : OperationError} (h : ItemDef.fillAll items c = .error error) :
    (∃ cause, error = .value cause) ∧ ItemDef.Illegal items c.layout := by
  match items with
  | [] => cases h
  | .enable gate :: items =>
      obtain ⟨hcause, hillegal⟩ := ItemDef.fillAll_error items hawaits.tail h
      exact ⟨hcause, hillegal.cons⟩
  | .reserved run :: items =>
      obtain ⟨hcause, hillegal⟩ := ItemDef.fillAll_error items hawaits.tail h
      exact ⟨hcause, hillegal.cons⟩
  | .field ⟨name, kind, mode, enabledBy, editable, position, value⟩ :: items =>
      let d : FieldDef := ⟨name, kind, mode, enabledBy, editable, position, value⟩
      obtain ⟨index, slot, field, hslot, hfield, hname, hkind, heq⟩ := hawaits.head
      rw [ItemDef.fillAll_field, heq] at h
      obtain ⟨cell, hcell, _⟩ | ⟨own, hown, hfails⟩ := FieldDef.filled_cases hkind
      · rw [hcell] at h
        obtain ⟨hcause, hillegal⟩ :=
          ItemDef.fillAll_error items (hawaits.fillAt? hslot hfield hname cell) h
        rw [Container.layout_fillAt?] at hillegal
        exact ⟨hcause, hillegal.cons⟩
      · rw [hown] at h
        cases h
        refine hfails.illegal List.mem_cons_self ?_ fun inner htype herror => ?_
        · rw [← hname]
          exact Layout.field?_eq_some.mpr ⟨_, _, hawaits.realises.linked.finds hslot hfield⟩
        · rw [htype] at hkind
          exact kind.fill_error hkind herror
termination_by structural items

end

theorem Container.FilledTo.exists_fills {layout : Layout} {filled : Container}
    {items : List ItemDef} (h : (Container.new layout).FilledTo filled items)
    (hrealises : layout.Realises items) {d : FieldDef} (hd : ItemDef.field d ∈ items) :
    ∃ field cell, layout.field? d.name = some field ∧ d.kind.Yields field.type ∧
      d.Fills field cell := by
  obtain ⟨slot, hmem, field, hfield, hname, _, _⟩ := hrealises.fields d hd
  obtain ⟨index, hslot⟩ := List.getElem?_of_mem hmem
  obtain ⟨cell, hsets, _⟩ := h.fields index slot field hslot hfield
  have hfound : layout.field? d.name = some field :=
    hname ▸ Layout.field?_eq_some.mpr ⟨index, slot, hrealises.linked.finds hslot hfield⟩
  cases hsets with
  | undeclared hnone => exact absurd hname.symm (hnone d hd)
  | declared hmem hown hkind hfills =>
      obtain rfl := hrealises.distinct.field_eq hd hmem (hname.symm.trans hown.symm)
      exact ⟨field, cell, hfound, hkind, hfills⟩

/-- After filling has succeeded, all configured values are admitted. -/
theorem ItemDef.Configures.admits {items : List ItemDef} {path : List String} {name : String}
    {value : ValueDef} (h : ItemDef.Configures items path name value) {layout : Layout}
    {filled : Container} (hrealises : layout.Realises items)
    (hfill : ItemDef.fillAll items (.new layout) = .ok filled) : layout.Admits path name value := by
  induction h generalizing layout filled with
  | @own items d value hd hvalue =>
      obtain ⟨field, cell, hfield, _, hfills⟩ :=
        ((Container.awaits_new hrealises).filledTo hfill).exists_fills hrealises hd
      cases hfills with
      | value hown heditable hscalar =>
          obtain rfl := Option.some.inj (hvalue.symm.trans hown)
          exact ⟨field, hfield, heditable, Option.isSome_of_eq_some hscalar⟩
      | inside hnone _ _ _ => cases hvalue.symm.trans hnone
      | nothing hnone _ => cases hvalue.symm.trans hnone
  | @inside items d nested path name value hd hkind hconfigures ih =>
      obtain ⟨field, cell, hfield, hyields, hfills⟩ :=
        ((Container.awaits_new hrealises).filledTo hfill).exists_fills hrealises hd
      obtain ⟨inner, htype, hinner⟩ := hyields.of_record hkind
      obtain ⟨outer, items, dynamicSize, strict⟩ := nested
      cases hfills with
      | value _ _ hscalar =>
          rw [htype] at hscalar
          cases hscalar
      | inside _ _ hrecord hnested =>
          cases htype.symm.trans hrecord
          rw [hkind] at hnested
          exact (Layout.admits_inside hfield htype _ _).mpr (ih hinner hnested)
      | nothing _ hidle =>
          rw [hkind] at hidle
          cases hidle.symm.trans hconfigures.anyInitialised

/-- Filling a new container succeeds exactly when every configured value is admitted. -/
theorem Layout.Realises.fillAll_isOk_iff {layout : Layout} {items : List ItemDef}
    (h : layout.Realises items) :
    (∃ filled, ItemDef.fillAll items (.new layout) = .ok filled) ↔
      ∀ path name value, ItemDef.Configures items path name value →
        layout.Admits path name value := by
  constructor
  · rintro ⟨filled, hfill⟩ path name value hconfigures
    exact hconfigures.admits h hfill
  · intro hlegal
    cases hfill : ItemDef.fillAll items (.new layout) with
    | ok filled => exact ⟨filled, rfl⟩
    | error error =>
        obtain ⟨_, path, name, value, hconfigures, hrefused⟩ :=
          ItemDef.fillAll_error items (Container.awaits_new h) hfill
        exact absurd (hlegal path name value hconfigures) hrefused

end RadioPacket
