import RadioPacket.Proofs.Container.Reachable
import RadioPacket.Proofs.Layout.Derived

/-!
# What an operation touches

An operation addresses one item of a layout, by its index or by its name.  What it does and what it
answers follow from the cell of that item alone, and it writes no other cells than this one and, for
a field, the enable that gates it.  Links are a matching, so no other item is touched.  Whatever is
said of operations in any order or number rests on this account of a single one.
-/

namespace RadioPacket

namespace Layout.Matched

variable {layout : Layout} (h : layout.Matched) {i j k : Nat} {a b : Slot}

include h

theorem link_ne_self (ha : layout.slots[i]? = some a) : a.link ≠ some i := by
  intro hlink
  obtain ⟨b, enable, field, hb, hsides, _⟩ := h.couples i i a ha hlink
  obtain rfl := Option.some.inj (ha.symm.trans hb)
  rcases hsides with ⟨henable, hfield⟩ | ⟨hfield, henable⟩
  · cases henable.symm.trans hfield
  · cases hfield.symm.trans henable

theorem link_back (ha : layout.slots[i]? = some a) (hb : layout.slots[j]? = some b)
    (hlink : a.link = some j) : b.link = some i :=
  (h.symmetric i j a b ha hb).mp hlink

theorem index_eq_of_link (ha : layout.slots[i]? = some a) (hb : layout.slots[j]? = some b)
    (halink : a.link = some k) (hblink : b.link = some k) : i = j := by
  obtain ⟨c, _, _, hc, _⟩ := h.couples i k a ha halink
  have hi := h.link_back ha hc halink
  have hj := h.link_back hb hc hblink
  exact Option.some.inj (hi.symm.trans hj)

end Layout.Matched

theorem Cell.modify_eq_set {cells : List Cell} {index : Nat} {cell : Cell}
    (hcell : cells[index]? = some cell) (change : Cell → Cell) :
    cells.modify index change = cells.set index (change cell) := by
  rw [List.modify_eq_set_getElem?, hcell]
  rfl

/-! ## Effects -/

/-- What an operation makes of the item that it addresses: the item's new cell, the presence that it
decides, if any, and its answer. -/
structure Effect where
  cell : Cell
  presence : Option Bool
  answer : Except OperationError Unit

namespace Effect

/-- The effect of a refused operation on an item with the given cell. -/
def refusal (cell : Cell) (error : OperationError) : Effect := ⟨cell, none, .error error⟩

/-- The container after an effect on the item at an index, whose slot has the given link. -/
def apply (effect : Effect) (c : Container) (index : Nat) (link : Option Nat) : Container :=
  match effect.presence with
  | none => c.put index effect.cell
  | some present => (c.put index effect.cell).mark link present

variable {effect other : Effect} {c : Container} {index : Nat} {link : Option Nat}

@[simp] theorem layout_apply : (effect.apply c index link).layout = c.layout := by
  rw [apply]
  split
  · rfl
  · exact Container.layout_mark link _

@[simp] theorem length_apply : (effect.apply c index link).cells.length = c.cells.length := by
  rw [apply]
  split
  · exact List.length_set
  · cases link with
    | none => exact List.length_set
    | some enable => simp only [Container.mark, Container.put, List.length_set]

/-- What stands in a slot after an effect; `old` is what stood there before. -/
def cellAt (effect : Effect) (index : Nat) (link : Option Nat) (slot : Nat) (old : Cell) : Cell :=
  match effect.presence with
  | none => if index = slot then effect.cell else old
  | some present =>
      if link = some slot then .enable present
      else if index = slot then effect.cell
      else old

theorem cellAt_of_ne {slot : Nat} (hitem : index ≠ slot) (hlink : link ≠ some slot) (old : Cell) :
    effect.cellAt index link slot old = old := by
  unfold cellAt
  split
  · exact if_neg hitem
  · rw [if_neg hlink, if_neg hitem]

theorem cellAt_self (hself : link ≠ some index) (old : Cell) :
    effect.cellAt index link index old = effect.cell := by
  unfold cellAt
  split
  · exact if_pos rfl
  · rw [if_neg hself, if_pos rfl]

theorem getElem?_apply (slot : Nat) :
    (effect.apply c index link).cells[slot]? =
      c.cells[slot]?.map (effect.cellAt index link slot) := by
  have hset (cells : List Cell) (place : Nat) (cell : Cell) : (cells.set place cell)[slot]? =
      cells[slot]?.map fun old => if place = slot then cell else old := by
    rw [List.set_eq_modify, List.getElem?_modify]
    split
    · rfl
    · rfl
  unfold apply cellAt
  cases effect.presence with
  | none => exact hset c.cells index effect.cell
  | some present =>
      cases link with
      | none => exact hset c.cells index effect.cell
      | some enable =>
          simp only [Container.mark, Container.put, hset, Option.map_map, Option.some.injEq]
          rfl

theorem getElem?_apply_of_ne {slot : Nat} (hitem : index ≠ slot) (hlink : link ≠ some slot) :
    (effect.apply c index link).cells[slot]? = c.cells[slot]? := by
  have hold : effect.cellAt index link slot = id := funext (cellAt_of_ne hitem hlink)
  rw [getElem?_apply, hold, Option.map_id]
  rfl

theorem getElem?_apply_self (hself : link ≠ some index) {cell : Cell}
    (hcell : c.cells[index]? = some cell) :
    (effect.apply c index link).cells[index]? = some effect.cell := by
  rw [getElem?_apply, hcell, Option.map_some, cellAt_self hself]

/-- The enable of the item gets the presence that is decided, and keeps its state if none is. -/
theorem getElem?_apply_link {gate : Nat} (hgate : link = some gate) (hself : link ≠ some index)
    {present : Bool} (hcell : c.cells[gate]? = some (.enable present)) :
    (effect.apply c index link).cells[gate]? =
      some (.enable (effect.presence.getD present)) := by
  have hne : index ≠ gate := by
    rintro rfl
    exact hself hgate
  rw [getElem?_apply, hcell, Option.map_some, cellAt]
  rcases effect.presence with _ | decided
  · exact congrArg some (if_neg hne)
  · exact congrArg some (if_pos hgate)

theorem put_self {cell : Cell} (hcell : c.cells[index]? = some cell) : c.put index cell = c := by
  obtain ⟨hlt, rfl⟩ := List.getElem?_eq_some_iff.mp hcell
  rw [Container.put, List.set_getElem_self hlt]

theorem apply_refusal {cell : Cell} {error : OperationError} (hcell : c.cells[index]? = some cell) :
    (refusal cell error).apply c index link = c :=
  put_self hcell

theorem apply_mark {cell : Cell} {present : Bool} {answer : Except OperationError Unit}
    (hcell : c.cells[index]? = some cell) :
    (Effect.mk cell (some present) answer).apply c index link = c.mark link present := by
  simp only [apply, put_self hcell]

/-- Effects on different items that are not linked may be carried out in either order. -/
theorem apply_comm {i j : Nat} {a b : Option Nat} (hne : i ≠ j) (ha : a ≠ some j) (hb : b ≠ some i)
    (hlinks : ∀ k, a = some k → b ≠ some k) :
    other.apply (effect.apply c i a) j b = effect.apply (other.apply c j b) i a := by
  have hcells : (other.apply (effect.apply c i a) j b).cells =
      (effect.apply (other.apply c j b) i a).cells := by
    apply List.ext_getElem?
    intro slot
    simp only [getElem?_apply, Option.map_map]
    congr 1
    funext old
    -- No slot is written by both effects.
    by_cases hslot : j = slot ∨ b = some slot
    · have hi : i ≠ slot := by grind
      have hk : a ≠ some slot := by grind
      simp only [Function.comp_apply, cellAt_of_ne hi hk]
    · obtain ⟨hj, hl⟩ := not_or.mp hslot
      simp only [Function.comp_apply, cellAt_of_ne hj hl]
  have hlayout : (other.apply (effect.apply c i a) j b).layout =
      (effect.apply (other.apply c j b) i a).layout := by simp only [layout_apply]
  exact congrArg₂ Container.mk hlayout hcells

end Effect

/-! ## What operations make of an item -/

/-- The symbols of an enumerated field. -/
def Slot.table? (slot : Slot) : Option EnumTable :=
  slot.item.field?.bind fun field => field.type.leaf?.bind LeafType.table?

/-- What assigning makes of the item of a slot with the given cell; no value means absent. -/
def Slot.assign (slot : Slot) (cell : Cell) (value : Option Value) : Effect :=
  match slot.item with
  | .reserved _ => .refusal cell (.value (.reserved slot.item.label))
  | .enable enable =>
      match Enable.stateOf enable.bits value with
      | .error error => .refusal cell (.value error)
      | .ok present => ⟨.enable present, none, .ok ()⟩
  | .field field =>
      if field.editable = false then .refusal cell (.value (.readOnly field.name))
      else
        match value with
        | none =>
            if slot.link = none then .refusal cell (.value (.notOptional field.name))
            else ⟨cell, some false, .ok ()⟩
        | some value =>
            match field.type.accept (cell.mode?.getD .disabled) value with
            | .error error => .refusal cell (.value error)
            | .ok next => ⟨next, some true, .ok ()⟩

/-- What a change inside makes of the item of a slot, if it shows a structure. -/
def Slot.change (slot : Slot) (cell : Cell)
    (run : Container → Container × Except OperationError Unit) : Effect :=
  match slot.valueOf cell with
  | .scalar value => .refusal cell (.value (.kind "structure" value.kind))
  | .record inner =>
      ⟨.record (run inner).1.cells (cell.mode?.getD .disabled), some true, (run inner).2⟩

namespace Operation

/-- The index of the item that an operation addresses. -/
def target? (layout : Layout) : Operation → Option Nat
  | .assignAt index _ => some index
  | .assign name _ => layout.index? name
  | .clear name => layout.index? name
  | .assignSymbol name _ => layout.index? name
  | .changeMode name _ => layout.index? name
  | .touch name => layout.index? name
  | .within name _ => layout.index? name

/-- What an operation makes of the item that it addresses, whose slot and cell are given. -/
def effect (slot : Slot) (cell : Cell) : Operation → Effect
  | .assignAt _ value => slot.assign cell value
  | .assign _ value => slot.assign cell (some value)
  | .clear _ => slot.assign cell none
  | .assignSymbol _ symbol =>
      match slot.table? with
      | none => .refusal cell (.value (.kind "enum" "non-enum field"))
      | some table =>
          match table.valueOf? symbol with
          | none => .refusal cell (.value (.notMember table.name symbol))
          | some value => slot.assign cell (some (.scalar (.unsigned value)))
  | .changeMode name requested =>
      match slot.item.field? with
      | none => .refusal cell (.mode (.unknownField name))
      | some _ =>
          match (cell.mode?.getD .disabled).request requested name with
          | .error error => .refusal cell (.mode error)
          | .ok next => ⟨cell.withMode next, next.presence?, .ok ()⟩
  | .touch _ =>
      match slot.valueOf cell with
      | .scalar value => .refusal cell (.value (.kind "structure" value.kind))
      | .record _ => ⟨cell, some true, .ok ()⟩
  | .within _ operation => slot.change cell operation.run

end Operation

/-! ## Effects of operations -/

namespace Container

variable {c : Container} {index : Nat} {slot : Slot} {cell : Cell}

theorem index_eq_ok {name : String} (h : c.layout.index? name = some index) :
    c.index name = .ok index := by rw [Container.index, h]

theorem modeAt_eq (hcell : c.cells[index]? = some cell) :
    c.modeAt index = cell.mode?.getD .disabled := by rw [modeAt, hcell, Option.bind_some]

theorem enumTable?_eq (hslot : c.layout.slots[index]? = some slot) :
    c.enumTable? index = slot.table? := by
  rw [enumTable?, Layout.slot?, hslot]
  rfl

theorem nestedAt_eq (hslot : c.layout.slots[index]? = some slot)
    (hcell : c.cells[index]? = some cell) :
    c.nestedAt index =
      match slot.valueOf cell with
      | .record nested => .ok nested
      | .scalar value => .error (.kind "structure" value.kind) := by
  simp only [nestedAt, Layout.slot?, hslot, hcell]
  cases slot.valueOf cell with
  | scalar value => rfl
  | record nested => rfl

theorem settle_refused {ε : Type} {refuse : ε → OperationError} {error : ε} {link : Option Nat}
    (hcell : c.cells[index]? = some cell) :
    Operation.settle c refuse (.error error) =
      ((Effect.refusal cell (refuse error)).apply c index link, .error (refuse error)) := by
  rw [Effect.apply_refusal hcell]
  rfl

theorem settle_assignAt (hslot : c.layout.slots[index]? = some slot)
    (hcell : c.cells[index]? = some cell) (value : Option Value) :
    Operation.settle c .value (c.assignAt index value) =
      ((slot.assign cell value).apply c index slot.link, (slot.assign cell value).answer) := by
  unfold assignAt Slot.assign
  simp only [Layout.slot?, hslot]
  cases hitem : slot.item with
  | reserved run => exact settle_refused hcell
  | enable enable =>
      simp only
      rcases Enable.stateOf enable.bits value with error | present
      · exact settle_refused hcell
      · rfl
  | field field =>
      simp only
      rcases heditable : field.editable with _ | _
      · exact settle_refused hcell
      · rcases value with _ | value
        · rcases hlink : slot.link with _ | gate
          · exact settle_refused hcell
          · exact congrArg (·, Except.ok ()) (Effect.apply_mark hcell).symm
        · simp only [modeAt_eq hcell]
          rcases field.type.accept (cell.mode?.getD .disabled) value with error | next
          · exact settle_refused hcell
          · rfl

theorem settle_changeMode {name : String} (hindex : c.layout.index? name = some index)
    (hslot : c.layout.slots[index]? = some slot) (hcell : c.cells[index]? = some cell)
    (requested : Mode) :
    Operation.settle c .mode (c.changeMode name requested) =
      (((Operation.changeMode name requested).effect slot cell).apply c index slot.link,
        ((Operation.changeMode name requested).effect slot cell).answer) := by
  rw [changeMode, modeIndex, Operation.effect]
  simp only [hindex, Layout.slot?, hslot, Option.bind_some]
  rcases slot.item.field? with _ | field
  · exact settle_refused hcell
  · change Operation.settle c .mode ((c.modeAt index).request requested name >>= _) = _
    simp only [modeAt_eq hcell]
    rcases (cell.mode?.getD .disabled).request requested name with error | next
    · exact settle_refused hcell
    · simp only [Cell.modify_eq_set hcell, hslot, Option.bind_some, Effect.apply]
      change Operation.settle c .mode
        (match next.presence? with | none => _ | some present => _) = _
      rcases next.presence? with _ | present
      · rfl
      · rfl

theorem enter_eq {name : String} (hindex : c.layout.index? name = some index)
    (hslot : c.layout.slots[index]? = some slot) (hcell : c.cells[index]? = some cell) :
    c.enter name =
      match slot.valueOf cell with
      | .record inner => .ok (c.mark slot.link true, index, inner)
      | .scalar value => .error (.kind "structure" value.kind) := by
  rw [enter, index_eq_ok hindex]
  change (c.nestedAt index >>= _) = _
  rw [nestedAt_eq hslot hcell, link_of_slot hslot]
  rcases slot.valueOf cell with value | inner
  · rfl
  · rfl

theorem within_eq {name : String} (hindex : c.layout.index? name = some index)
    (hslot : c.layout.slots[index]? = some slot) (hself : slot.link ≠ some index)
    (hcell : c.cells[index]? = some cell)
    (run : Container → Container × Except OperationError Unit) :
    c.within name (fun error => .error (.value error)) run =
      ((slot.change cell run).apply c index slot.link, (slot.change cell run).answer) := by
  rw [within, enter_eq hindex hslot hcell, Slot.change]
  rcases slot.valueOf cell with value | inner
  · exact congrArg (·, _) (Effect.apply_refusal hcell).symm
  · simp only [replace, Effect.apply, Prod.mk.injEq, and_true]
    rcases hlink : slot.link with _ | enable
    · rw [mark, mark, modeAt_eq hcell]
    · have hne : enable ≠ index := by
        rintro rfl
        exact hself hlink
      have hkept : (c.mark (some enable) true).cells[index]? = some cell := by
        rw [mark, put, List.getElem?_set_ne hne]
        exact hcell
      rw [modeAt_eq hkept, mark, mark, put, put, put, put, List.set_comm _ _ hne]

end Container

namespace Operation

variable {c : Container} {index : Nat} {slot : Slot} {cell : Cell}

/-- What an operation does and answers is its effect on the item that it addresses. -/
theorem run_eq (operation : Operation) (htarget : operation.target? c.layout = some index)
    (hslot : c.layout.slots[index]? = some slot) (hself : slot.link ≠ some index)
    (hcell : c.cells[index]? = some cell) :
    operation.run c =
      ((operation.effect slot cell).apply c index slot.link,
        (operation.effect slot cell).answer) := by
  cases operation with
  | assignAt found value =>
      obtain rfl := Option.some.inj htarget
      exact Container.settle_assignAt hslot hcell value
  | assign name value =>
      rw [run, Container.assign, Container.index_eq_ok htarget]
      exact Container.settle_assignAt hslot hcell (some value)
  | clear name =>
      rw [run, Container.clear, Container.index_eq_ok htarget]
      exact Container.settle_assignAt hslot hcell none
  | assignSymbol name symbol =>
      rw [run, Container.assignSymbol, Container.index_eq_ok htarget, effect]
      change settle c .value (match c.enumTable? index with | none => _ | some table => _) = _
      rw [Container.enumTable?_eq hslot]
      rcases slot.table? with _ | table
      · exact Container.settle_refused hcell
      · simp only
        rcases table.valueOf? symbol with _ | number
        · exact Container.settle_refused hcell
        · exact Container.settle_assignAt hslot hcell _
  | changeMode name requested => exact Container.settle_changeMode htarget hslot hcell requested
  | touch name =>
      rw [run, Container.enter_eq htarget hslot hcell, effect]
      rcases slot.valueOf cell with value | inner
      · exact Container.settle_refused hcell
      · simp only [Effect.apply_mark hcell]
        rfl
  | within name operation => exact Container.within_eq htarget hslot hself hcell operation.run

theorem field_of_presence_assign {value : Option Value}
    (h : (slot.assign cell value).presence ≠ none) : ∃ field, slot.item = .field field := by
  unfold Slot.assign at h
  split at h
  · exact absurd rfl h
  · split at h
    · exact absurd rfl h
    · exact absurd rfl h
  · next field hfield => exact ⟨field, hfield⟩

theorem field_of_valueOf_record {inner : Container} (h : slot.valueOf cell = .record inner) :
    ∃ field, slot.item = .field field := by
  unfold Slot.valueOf at h
  split at h
  · next field hfield => exact ⟨field, hfield⟩
  · cases h
  · cases h

/-- Only an operation on a field decides presence. -/
theorem field_of_presence {operation : Operation}
    (h : (operation.effect slot cell).presence ≠ none) : ∃ field, slot.item = .field field := by
  unfold effect at h
  split at h
  · exact field_of_presence_assign h
  · exact field_of_presence_assign h
  · exact field_of_presence_assign h
  · split at h
    · exact absurd rfl h
    · split at h
      · exact absurd rfl h
      · exact field_of_presence_assign h
  · split at h
    · exact absurd rfl h
    · next field hfield => exact ⟨field, Item.eq_field_of_field? hfield⟩
  · split at h
    · exact absurd rfl h
    · next inner hvalue => exact field_of_valueOf_record hvalue
  · unfold Slot.change at h
    split at h
    · exact absurd rfl h
    · next inner hvalue => exact field_of_valueOf_record hvalue

/-- An operation that addresses no item of the layout is refused, always for the same reason. -/
theorem exists_refusal (operation : Operation) : ∃ error, ∀ c : Container,
    (∀ index, operation.target? c.layout = some index → c.layout.slots[index]? = none) →
      operation.run c = (c, .error error) := by
  -- A name that leads to no slot is unknown.
  have hunknown {c : Container} {name : String}
      (hmissing : ∀ index, c.layout.index? name = some index → c.layout.slots[index]? = none) :
      c.index name = .error (.unknownField name) ∧
        c.modeIndex name = .error (.unknownField name) := by
    have hnone : c.layout.index? name = none := by
      by_contra hfound
      obtain ⟨index, hindex⟩ := Option.ne_none_iff_exists'.mp hfound
      have hlt : index < c.layout.slots.length := (List.findIdx?_eq_some_iff_getElem.mp hindex).1
      cases (hmissing index hindex).symm.trans (List.getElem?_eq_getElem hlt)
    exact ⟨by rw [Container.index, hnone], by rw [Container.modeIndex, hnone]⟩
  cases operation with
  | assignAt index value =>
      refine ⟨.value (.unknownField ("#" ++ toString index)), ?_⟩
      intro c hmissing
      simp only [run, Container.assignAt, Layout.slot?, hmissing index rfl, settle]
  | assign name value =>
      refine ⟨.value (.unknownField name), fun c hmissing => ?_⟩
      rw [run, Container.assign, (hunknown hmissing).1]
      rfl
  | clear name =>
      refine ⟨.value (.unknownField name), fun c hmissing => ?_⟩
      rw [run, Container.clear, (hunknown hmissing).1]
      rfl
  | assignSymbol name symbol =>
      refine ⟨.value (.unknownField name), fun c hmissing => ?_⟩
      rw [run, Container.assignSymbol, (hunknown hmissing).1]
      rfl
  | changeMode name requested =>
      refine ⟨.mode (.unknownField name), fun c hmissing => ?_⟩
      rw [run, Container.changeMode, (hunknown hmissing).2]
      rfl
  | touch name =>
      refine ⟨.value (.unknownField name), fun c hmissing => ?_⟩
      rw [run, Container.enter, (hunknown hmissing).1]
      rfl
  | within name operation =>
      refine ⟨.value (.unknownField name), fun c hmissing => ?_⟩
      rw [run, Container.within, Container.enter, (hunknown hmissing).1]
      rfl

/-- An operation is refused outright and changes nothing, or it addresses an item of the layout. -/
theorem refused_or_exists_slot (operation : Operation) (c : Container) :
    (∃ error, operation.run c = (c, .error error)) ∨
      ∃ index slot, operation.target? c.layout = some index ∧
        c.layout.slots[index]? = some slot := by
  by_cases hmissing : ∀ index, operation.target? c.layout = some index →
      c.layout.slots[index]? = none
  · obtain ⟨error, hrefused⟩ := operation.exists_refusal
    exact .inl ⟨error, hrefused c hmissing⟩
  · simp only [not_forall] at hmissing
    obtain ⟨index, htarget, hfound⟩ := hmissing
    obtain ⟨slot, hslot⟩ := Option.ne_none_iff_exists'.mp hfound
    exact .inr ⟨index, slot, htarget, hslot⟩

theorem effect_congr {a b : Slot} (hitem : a.item = b.item) (hlink : a.link = b.link)
    (operation : Operation) : operation.effect a cell = operation.effect b cell := by
  obtain ⟨item, position, link⟩ := a
  obtain ⟨other, place, partner⟩ := b
  obtain rfl : item = other := hitem
  obtain rfl : link = partner := hlink
  cases operation with
  | assignAt _ _ => rfl
  | assign _ _ => rfl
  | clear _ => rfl
  | assignSymbol _ _ => rfl
  | changeMode _ _ => rfl
  | touch _ => rfl
  | within _ _ => rfl

end Operation

/-! ## A layout with two gated fields -/

namespace Layout.Sample

/-- A word with an optional kind and a required level, each behind a gate of its own. -/
def report : Blueprint :=
  (((((Blueprint.new "report").enable { name := "kindGate", field := some "kind" }).enable
    { name := "levelGate", field := some "level" }).reserved 3).field
    { name := "kind", type := .leaf kind, mode := .optional, enabledBy := some "kindGate" }).field
    { name := "level", type := .leaf level, enabledBy := some "levelGate" } |>.reserved 16

/-- The layout of `report`. -/
def reportLayout : Layout where
  name := "report"
  slots :=
    [⟨.enable { name := "kindGate", field := some "kind" }, ⟨0⟩, some 3⟩,
      ⟨.enable { name := "levelGate", field := some "level" }, ⟨1⟩, some 4⟩,
      ⟨.reserved { bits := 3 }, ⟨2⟩, none⟩,
      ⟨.field { name := "kind", type := .leaf kind, mode := .optional,
                enabledBy := some "kindGate" }, ⟨5⟩, some 0⟩,
      ⟨.field { name := "level", type := .leaf level, enabledBy := some "levelGate" }, ⟨8⟩,
        some 1⟩,
      ⟨.reserved { bits := 16 }, ⟨16⟩, none⟩]
  bits := 32
  warnings := []
  dynamicSize := false

theorem built_reportLayout : reportLayout.Built := by
  have hsteps : ∀ step ∈ report.steps, ∀ inner, step.record? = some inner → inner.Built := by
    intro step hstep inner hinner
    simp only [report, Blueprint.new, Blueprint.field, Blueprint.enable, Blueprint.reserved,
      Blueprint.item, Blueprint.step, List.nil_append, List.cons_append, List.mem_cons,
      List.not_mem_nil, or_false] at hstep
    rcases hstep with rfl | rfl | rfl | rfl | rfl | rfl
    all_goals cases hinner
  exact .fresh rfl hsteps rfl

end Layout.Sample

end RadioPacket
