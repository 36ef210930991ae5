import RadioPacket.Definition.Instance
import RadioPacket.Proofs.Container.Interference
import RadioPacket.Proofs.Container.Mandatory
import RadioPacket.Proofs.Definition.Realising

/-!
# Filling in initial values

The initial values of a definition are given to one field after the other.  What becomes of a field
depends on its own definition alone: it is left as it is, or its cell is replaced and the field is
marked present.  Names are distinct and links are a matching, so the fields do not interfere, and
filling a whole structure puts together what becomes of each field.
-/

namespace RadioPacket

/-- The scalar that a configured value stands for in a field: what the leaf makes of a number or a
truth value that it accepts, or the value of a symbol of its enumeration. -/
def FieldType.initial? : FieldType → ValueDef → Option Scalar
  | .leaf type, .scalar value => (type.coerce value).toOption
  | .leaf type, .symbol symbol => do return .unsigned (← (← type.table?).valueOf? symbol)
  | .record _, _ => none

/-- A value is configured for a field of the given name, in the structure at the end of a path of
field names. -/
inductive ItemDef.Configures : List ItemDef → List String → String → ValueDef → Prop
  | own {items : List ItemDef} {d : FieldDef} {value : ValueDef} :
      .field d ∈ items → d.value = some value → Configures items [] d.name value
  | inside {items : List ItemDef} {d : FieldDef} {inner : StructDef} {path : List String}
      {name : String} {value : ValueDef} :
      .field d ∈ items → d.kind = .record inner → Configures inner.items path name value →
      Configures items (d.name :: path) name value

def FieldType.record? : FieldType → Option Layout
  | .leaf _ => none
  | .record layout => some layout

/-- The field of the given name, in the structure at the end of a path of field names. -/
def Layout.fieldAt? : Layout → List String → String → Option Field
  | layout, [], name => layout.field? name
  | layout, outer :: path, name => do
      let field ← layout.field? outer
      let inner ← field.type.record?
      inner.fieldAt? path name

/-- The layout has an editable field at the end of the path that takes the configured value. -/
def Layout.Admits (layout : Layout) (path : List String) (name : String) (value : ValueDef) :
    Prop :=
  ∃ field, layout.fieldAt? path name = some field ∧ field.editable = true ∧
    (field.type.initial? value).isSome = true

/-! ## Giving a field its value -/

/-- The cell of a new field that is given a value. -/
def Field.assigned (field : Field) (value : Value) : Except ValueError Cell :=
  if field.editable = false then .error (.readOnly field.name)
  else field.type.accept field.mode.whenAssigned value

/-- The cell of a new field that is given its initial value. -/
def Field.initialised (field : Field) : ValueDef → Except ValueError Cell
  | .scalar value => field.assigned (.scalar value)
  | .symbol symbol =>
      match field.type.leaf?.bind LeafType.table? with
      | none => .error (.kind "enum" "non-enum field")
      | some table =>
          match table.valueOf? symbol with
          | none => .error (.notMember table.name symbol)
          | some value => field.assigned (.scalar (.unsigned value))

/-- An editable field is given what its initial value stands for, if that is anything, and a
disabled one then becomes required. -/
theorem Field.initialised_eq_ok {field : Field} {value : ValueDef} {cell : Cell} :
    field.initialised value = .ok cell ↔
      field.editable = true ∧ ∃ scalar, field.type.initial? value = some scalar ∧
        cell = .leaf scalar field.mode.whenAssigned := by
  have hassigned (scalar : Scalar) : field.assigned (.scalar scalar) = .ok cell ↔
      field.editable = true ∧ ∃ normal, field.type.initial? (.scalar scalar) = some normal ∧
        cell = .leaf normal field.mode.whenAssigned := by
    rw [assigned]
    cases field.editable with
    | false => simp
    | true =>
        cases htype : field.type with
        | leaf type =>
            simp only [FieldType.accept, FieldType.initial?]
            cases type.coerce scalar with
            | error cause => simp [Except.toOption, Except.map]
            | ok normal => simp [Except.toOption, Except.map, eq_comm]
        | record layout => simp [FieldType.accept, FieldType.initial?]
  cases value with
  | scalar scalar => exact hassigned scalar
  | symbol symbol =>
      rw [initialised]
      cases htype : field.type with
      | record layout => simp [FieldType.leaf?, FieldType.initial?]
      | leaf type =>
          rw [FieldType.leaf?, Option.bind_some]
          cases htable : type.table? with
          | none => simp [FieldType.initial?, htable]
          | some table =>
              cases hvalue : table.valueOf? symbol with
              | none => simp [FieldType.initial?, htable, hvalue]
              | some number =>
                  simp only [hassigned, htype, FieldType.initial?, htable, hvalue,
                    LeafType.coerce_of_valueOf? htable hvalue, Except.toOption,
                    Option.bind_eq_bind, Option.bind_some]
                  rfl

theorem Mode.eq_disabled_of_whenAssigned_ne {mode : Mode} (h : mode.whenAssigned ≠ mode) :
    mode = .disabled := by
  cases mode with
  | disabled => rfl
  | optional => exact absurd rfl h
  | required => exact absurd rfl h
  | mandatory => exact absurd rfl h

namespace Container

/-- The container with a new cell in a field, which is then present. -/
def fillAt (c : Container) (index : Nat) (link : Option Nat) (cell : Cell) : Container :=
  (c.put index cell).mark link true

/-- Filling is an effect on the field. -/
theorem fillAt_eq_apply (c : Container) (index : Nat) (link : Option Nat) (cell : Cell) :
    c.fillAt index link cell = (Effect.mk cell (some true) (.ok ())).apply c index link := rfl

variable {c : Container} {index : Nat} {link : Option Nat} {cell : Cell} {slot : Slot}
  {field : Field}

@[simp] theorem layout_fillAt (c : Container) (index : Nat) (link : Option Nat) (cell : Cell) :
    (c.fillAt index link cell).layout = c.layout := layout_mark link true

theorem getElem?_fillAt_self (hself : link ≠ some index) (hcell : c.cells[index]? = some cell)
    (next : Cell) : (c.fillAt index link next).cells[index]? = some next := by
  rw [fillAt_eq_apply, Effect.getElem?_apply_self hself hcell]

theorem fillAt_fillAt (hself : link ≠ some index) (cell next : Cell) :
    (c.fillAt index link cell).fillAt index link next = c.fillAt index link next := by
  rcases link with _ | gate
  · simp only [fillAt, mark, put, List.set_set]
  · have hne : index ≠ gate := fun heq => hself (congrArg some heq.symm)
    simp only [fillAt, mark, put, List.set_comm _ _ hne, List.set_set]

theorem assignAt_field (hslot : c.layout.slots[index]? = some slot)
    (hfield : slot.item = .field field) (hcell : c.cells[index]? = some cell) (value : Value) :
    c.assignAt index (some value) =
      (if field.editable = false then .error (.readOnly field.name)
        else field.type.accept (cell.mode?.getD .disabled) value).map
          (c.fillAt index slot.link) := by
  simp only [assignAt, Layout.slot?, hslot, hfield, modeAt_eq hcell]
  cases field.editable with
  | false => rfl
  | true => rfl

/-- Assigns a configured value. -/
def assignConfigured (c : Container) (name : String) : ValueDef → Except OperationError Container
  | .scalar scalar => configure (c.assign name (.scalar scalar))
  | .symbol symbol => configure (c.assignSymbol name symbol)

theorem initialise_eq_bind (c : Container) (name : String) (value : ValueDef) :
    c.initialise name value = (do
      let mode ← configureMode (c.mode name)
      if mode.whenAssigned = mode then c.assignConfigured name value
      else
        let usable ← configureMode (c.changeMode name mode.whenAssigned)
        usable.assignConfigured name value) := by
  cases value with
  | scalar scalar => rfl
  | symbol symbol => rfl

theorem assignConfigured_eq {name : String} (hindex : c.layout.index? name = some index)
    (hslot : c.layout.slots[index]? = some slot) (hfield : slot.item = .field field)
    (hcell : c.cells[index]? = some cell) (hmode : cell.mode? = some field.mode.whenAssigned)
    (value : ValueDef) :
    c.assignConfigured name value =
      ((field.initialised value).mapError .value).map (c.fillAt index slot.link) := by
  have hassign (value : Value) : configure (c.assignAt index (some value)) =
      ((field.assigned value).mapError .value).map (c.fillAt index slot.link) := by
    rw [assignAt_field hslot hfield hcell, hmode, Option.getD_some, ← Field.assigned, configure]
    cases field.assigned value with
    | error cause => rfl
    | ok next => rfl
  cases value with
  | scalar scalar =>
      simp only [assignConfigured, assign, index_eq_ok hindex]
      exact hassign _
  | symbol symbol =>
      have htable : c.enumTable? index = field.type.leaf?.bind LeafType.table? := by
        rw [enumTable?_eq hslot, Slot.table?, hfield]
        rfl
      simp only [assignConfigured, assignSymbol, index_eq_ok hindex, Field.initialised]
      change configure (match c.enumTable? index with | none => _ | some table => _) = _
      rw [htable]
      cases field.type.leaf?.bind LeafType.table? with
      | none => rfl
      | some table =>
          simp only
          cases table.valueOf? symbol with
          | none => rfl
          | some number => exact hassign _

theorem initialise_eq {name : String} (hindex : c.layout.index? name = some index)
    (hslot : c.layout.slots[index]? = some slot) (hfield : slot.item = .field field)
    (hself : slot.link ≠ some index) (hcell : c.cells[index]? = some cell)
    (hmode : cell.mode? = some field.mode) (value : ValueDef) :
    c.initialise name value =
      ((field.initialised value).mapError .value).map (c.fillAt index slot.link) := by
  have hmodeIndex : c.modeIndex name = .ok index := by
    simp only [modeIndex, hindex, Layout.slot?, hslot, hfield, Option.bind_some, Item.field?]
  have hmodeAt : c.modeAt index = field.mode := by rw [modeAt_eq hcell, hmode, Option.getD_some]
  have hcurrent : c.mode name = .ok field.mode := by rw [mode, hmodeIndex, Except.map, hmodeAt]
  rw [initialise_eq_bind, hcurrent]
  change (if field.mode.whenAssigned = field.mode then _ else _) = _
  by_cases hkept : field.mode.whenAssigned = field.mode
  · rw [if_pos hkept]
    exact assignConfigured_eq hindex hslot hfield hcell (hkept.symm ▸ hmode) value
  · rw [if_neg hkept]
    -- A mode that changes is disabled, and the request for required is granted.
    have hdisabled : field.mode = .disabled := Mode.eq_disabled_of_whenAssigned_ne hkept
    have hchange : c.changeMode name field.mode.whenAssigned =
        .ok (c.fillAt index slot.link (cell.withMode .required)) := by
      simp only [changeMode, hmodeIndex, hdisabled, Mode.whenAssigned]
      change (c.modeAt index).request .required name >>= _ = _
      rw [hmodeAt, hdisabled]
      simp only [Mode.request, Cell.modify_eq_set hcell, link_of_slot hslot]
      rfl
    have hwritten : (c.fillAt index slot.link (cell.withMode .required)).cells[index]? =
        some (cell.withMode .required) := getElem?_fillAt_self hself hcell _
    have hrequired : (cell.withMode .required).mode? = some field.mode.whenAssigned := by
      rw [hdisabled]
      cases cell with
      | enable present => cases hmode
      | leaf value old => rfl
      | record cells old => rfl
      | reserved => cases hmode
    have hassign := assignConfigured_eq ((layout_fillAt ..).symm ▸ hindex)
      ((layout_fillAt ..).symm ▸ hslot) hfield hwritten hrequired value
    rw [funext (fillAt_fillAt hself (cell.withMode .required))] at hassign
    rw [hchange]
    exact hassign

end Container

/-! ## One field -/

/-- Gives the fields inside one field their initial values. -/
def FieldDef.fillInside (d : FieldDef) (c : Container) : Except OperationError Container :=
  if d.kind.isInitialised then do
    let (marked, index, inner) ← (c.enter d.name).mapError .value
    return marked.replace index (← d.kind.fill inner)
  else return c

/-- Gives one field its initial value, after those inside it. -/
def FieldDef.fill (d : FieldDef) (c : Container) : Except OperationError Container := do
  (← d.fillInside c).initialise? d.name d.value

theorem ItemDef.fillAll_field (d : FieldDef) (items : List ItemDef) (c : Container) :
    ItemDef.fillAll (.field d :: items) c = d.fill c >>= ItemDef.fillAll items := by
  obtain ⟨name, kind, mode, enabledBy, editable, position, value⟩ := d
  simp only [ItemDef.fillAll, FieldDef.fill, FieldDef.fillInside]
  cases kind.isInitialised with
  | false => rfl
  | true =>
      simp only [if_true, bind_assoc]

/-- The cell of a new field after the values inside it, `none` if there are none. -/
def FieldDef.entered (d : FieldDef) (field : Field) : Except OperationError (Option Cell) :=
  match field.type with
  | .leaf _ => .ok none
  | .record layout =>
      if d.kind.isInitialised then
        (d.kind.fill (.new layout)).map fun inner => some (.record inner.cells field.mode)
      else .ok none

/-- The cell of a new field after its own value, on top of what the values inside it have made. -/
def FieldDef.valued (d : FieldDef) (field : Field) (made : Option Cell) :
    Except OperationError (Option Cell) :=
  match d.value with
  | none => .ok made
  | some value => ((field.initialised value).mapError .value).map some

/-- The cell that its definition puts into a new field, `none` if it leaves the field alone. -/
def FieldDef.filled (d : FieldDef) (field : Field) : Except OperationError (Option Cell) :=
  d.entered field >>= d.valued field

namespace Container

/-- The container with a new cell in a field, or as it is. -/
def fillAt? (c : Container) (index : Nat) (link : Option Nat) : Option Cell → Container
  | none => c
  | some cell => c.fillAt index link cell

variable {c : Container} {index : Nat} {slot : Slot} {field : Field} {d : FieldDef}

@[simp] theorem layout_fillAt? (c : Container) (index : Nat) (link : Option Nat)
    (cell : Option Cell) : (c.fillAt? index link cell).layout = c.layout := by
  cases cell with
  | none => rfl
  | some cell => exact layout_fillAt c index link cell

theorem replace_mark {cell : Cell} (hself : slot.link ≠ some index)
    (hcell : c.cells[index]? = some cell) (inner : Container) :
    (c.mark slot.link true).replace index inner =
      c.fillAt index slot.link (.record inner.cells (cell.mode?.getD .disabled)) := by
  rcases hlink : slot.link with _ | gate
  · rw [mark, replace, modeAt_eq hcell]
    rfl
  · have hne : gate ≠ index := fun heq => hself (heq ▸ hlink)
    have hkept : (c.mark (some gate) true).cells[index]? = some cell := by
      rw [mark, put, List.getElem?_set_ne hne, hcell]
    rw [replace, modeAt_eq hkept, fillAt, mark, mark, put, put, put, put, List.set_comm _ _ hne]

/-- A field that is in its declared mode, with or without values inside it, is given its own. -/
theorem initialise?_fillAt? {old : Cell} (hname : c.layout.index? d.name = some index)
    (hslot : c.layout.slots[index]? = some slot) (hfield : slot.item = .field field)
    (hself : slot.link ≠ some index) (hcell : c.cells[index]? = some old)
    (hold : old.mode? = some field.mode) {made : Option Cell}
    (hmade : ∀ cell, made = some cell → cell.mode? = some field.mode) :
    (c.fillAt? index slot.link made).initialise? d.name d.value =
      (d.valued field made).map (c.fillAt? index slot.link) := by
  rw [FieldDef.valued]
  cases d.value with
  | none => rfl
  | some value =>
      have hmap : ((field.initialised value).mapError OperationError.value).map
          (c.fillAt index slot.link) =
            (((field.initialised value).mapError OperationError.value).map some).map
              (c.fillAt? index slot.link) := by
        cases field.initialised value with
        | error cause => rfl
        | ok cell => rfl
      cases made with
      | none =>
          rw [← hmap]
          exact initialise_eq hname hslot hfield hself hcell hold value
      | some cell =>
          have h := initialise_eq ((layout_fillAt c index slot.link cell).symm ▸ hname)
            ((layout_fillAt c index slot.link cell).symm ▸ hslot) hfield hself
            (getElem?_fillAt_self hself hcell cell) (hmade cell rfl) value
          rw [funext (fillAt_fillAt hself cell), hmap] at h
          exact h

/-- What filling makes of the container is what it makes of the new field. -/
theorem fill_eq (hname : c.layout.index? d.name = some index)
    (hslot : c.layout.slots[index]? = some slot) (hfield : slot.item = .field field)
    (hself : slot.link ≠ some index)
    (hcell : c.cells[index]? = some (field.type.freshCell field.mode))
    (hkind : d.kind.Yields field.type) :
    d.fill c = (d.filled field).map (c.fillAt? index slot.link) := by
  have hvalue (made : Option Cell) (hmade : ∀ cell, made = some cell →
      cell.mode? = some field.mode) := initialise?_fillAt? hname hslot hfield hself hcell
    (FieldType.mode?_freshCell _ _) hmade
  rw [FieldDef.fill, FieldDef.fillInside, FieldDef.filled, FieldDef.entered]
  cases htype : field.type with
  | leaf type =>
      obtain ⟨shape, hshape⟩ := (htype ▸ hkind).leaf
      have hidle : d.kind.isInitialised = false := by
        rw [hshape]
        rfl
      rw [hidle]
      exact hvalue none (by rintro _ ⟨⟩)
  | record layout =>
      cases d.kind.isInitialised with
      | false => exact hvalue none (by rintro _ ⟨⟩)
      | true =>
          have hshown : slot.valueOf (field.type.freshCell field.mode) =
              .record (.new layout) := by
            rw [Slot.valueOf, hfield]
            simp only [htype]
            rfl
          have hmode : (field.type.freshCell field.mode).mode?.getD .disabled = field.mode := by
            rw [FieldType.mode?_freshCell, Option.getD_some]
          simp only [if_true, enter_eq hname hslot hcell, hshown]
          change ((d.kind.fill (.new layout)) >>= fun inner =>
            pure ((c.mark slot.link true).replace index inner)) >>= _ = _
          cases d.kind.fill (.new layout) with
          | error cause => rfl
          | ok inner =>
              change ((c.mark slot.link true).replace index inner).initialise? d.name d.value = _
              rw [replace_mark hself hcell, hmode]
              refine hvalue (some (.record inner.cells field.mode)) ?_
              rintro _ ⟨⟩
              rfl

end Container

/-- What a definition makes of its new field: it takes a value of its own, or structures inside it
do, or nothing is configured. -/
inductive FieldDef.Fills (d : FieldDef) (field : Field) : Option Cell → Prop
  | value {value : ValueDef} {scalar : Scalar} :
      d.value = some value → field.editable = true →
      field.type.initial? value = some scalar →
      Fills d field (some (.leaf scalar field.mode.whenAssigned))
  | inside {layout : Layout} {inner : Container} :
      d.value = none → d.kind.isInitialised = true → field.type = .record layout →
      d.kind.fill (.new layout) = .ok inner → Fills d field (some (.record inner.cells field.mode))
  | nothing : d.value = none → d.kind.isInitialised = false → Fills d field none

/-- Why a definition cannot fill its new field: something inside it fails, or its own value is not
taken. -/
inductive FieldDef.Fails (d : FieldDef) (field : Field) : OperationError → Prop
  | inside {layout : Layout} {error : OperationError} :
      field.type = .record layout → d.kind.fill (.new layout) = .error error → Fails d field error
  | value {value : ValueDef} {cause : ValueError} :
      d.value = some value →
      ¬ (field.editable = true ∧ (field.type.initial? value).isSome = true) →
      Fails d field (.value cause)

namespace FieldDef

variable {d : FieldDef} {field : Field} {made : Option Cell}

theorem entered_of_idle (h : d.kind.isInitialised = false) : d.entered field = .ok none := by
  rw [entered, h]
  cases field.type with
  | leaf type => rfl
  | record layout => rfl

theorem entered_record {layout : Layout} (htype : field.type = .record layout)
    (h : d.kind.isInitialised = true) :
    d.entered field = (d.kind.fill (.new layout)).map fun inner =>
      some (.record inner.cells field.mode) := by
  rw [entered, htype, h]
  rfl

theorem exists_record (hkind : d.kind.Yields field.type) (h : d.kind.isInitialised = true) :
    ∃ layout, field.type = .record layout := by
  cases htype : field.type with
  | record layout => exact ⟨layout, rfl⟩
  | leaf type =>
      obtain ⟨shape, hshape⟩ := (htype ▸ hkind).leaf
      rw [hshape] at h
      cases h

theorem filled_of_entered (h : d.entered field = .ok made) :
    d.filled field = d.valued field made := by
  rw [filled, h]
  rfl

theorem valued_of_none (h : d.value = none) : d.valued field made = .ok made := by
  rw [valued, h]

theorem valued_of_some {value : ValueDef} (h : d.value = some value) :
    d.valued field made = ((field.initialised value).mapError .value).map some := by
  rw [valued, h]

/-- A value of its own decides, whatever has been made inside. -/
theorem valued_cases {value : ValueDef} (h : d.value = some value) :
    (∃ cell, d.valued field made = .ok cell ∧ d.Fills field cell) ∨
      ∃ error, d.valued field made = .error error ∧ d.Fails field error := by
  rw [valued_of_some h]
  cases hcell : field.initialised value with
  | error cause =>
      refine .inr ⟨.value cause, rfl, .value h ?_⟩
      rintro ⟨heditable, hlegal⟩
      obtain ⟨scalar, hscalar⟩ := Option.isSome_iff_exists.mp hlegal
      cases hcell.symm.trans (Field.initialised_eq_ok.mpr ⟨heditable, scalar, hscalar, rfl⟩)
  | ok cell =>
      obtain ⟨heditable, scalar, hscalar, rfl⟩ := Field.initialised_eq_ok.mp hcell
      exact .inl ⟨_, rfl, .value h heditable hscalar⟩

theorem filled_cases (hkind : d.kind.Yields field.type) :
    (∃ cell, d.filled field = .ok cell ∧ d.Fills field cell) ∨
      ∃ error, d.filled field = .error error ∧ d.Fails field error := by
  cases hinitialised : d.kind.isInitialised with
  | false =>
      rw [filled_of_entered (entered_of_idle hinitialised)]
      cases hvalue : d.value with
      | some value => exact valued_cases hvalue
      | none => exact .inl ⟨none, valued_of_none hvalue, .nothing hvalue hinitialised⟩
  | true =>
      obtain ⟨layout, htype⟩ := exists_record hkind hinitialised
      have hentered := entered_record htype hinitialised
      cases hinner : d.kind.fill (.new layout) with
      | error error =>
          refine .inr ⟨error, ?_, .inside htype hinner⟩
          rw [filled, hentered, hinner]
          rfl
      | ok inner =>
          rw [hinner] at hentered
          rw [filled_of_entered hentered]
          cases hvalue : d.value with
          | some value => exact valued_cases hvalue
          | none =>
              exact .inl ⟨_, valued_of_none hvalue, .inside hvalue hinitialised htype hinner⟩

end FieldDef

end RadioPacket
