import RadioPacket.Container.Operation
import RadioPacket.Proofs.Container.Reading

/-!
# Reachable containers

A container comes from default values or from bytes, and then changes by operations, which may store
other such containers in it.  Every such container fits its layout: each slot has a cell of its own
kind, each leaf value is normal for its type, and nested cells fit the layout of their field.  What
packing and unpacking promise rests on this invariant alone.
-/

namespace RadioPacket

/-! ## Lists in step -/

section InStep

variable {α β : Type} {R : α → β → Prop} {xs : List α} {ys : List β}

theorem forall₂_at (h : List.Forall₂ R xs ys) {index : Nat} {x : α} {y : β}
    (hx : xs[index]? = some x) (hy : ys[index]? = some y) : R x y := by
  obtain ⟨hxlt, rfl⟩ := List.getElem?_eq_some_iff.mp hx
  obtain ⟨hylt, rfl⟩ := List.getElem?_eq_some_iff.mp hy
  exact h.get hxlt hylt

theorem exists_at (h : List.Forall₂ R xs ys) {index : Nat} {x : α} (hx : xs[index]? = some x) :
    ∃ y, ys[index]? = some y ∧ R x y := by
  have hlt : index < ys.length := h.length_eq ▸ (List.getElem?_eq_some_iff.mp hx).1
  have hy := List.getElem?_eq_getElem hlt
  exact ⟨ys[index], hy, forall₂_at h hx hy⟩

theorem forall₂_of_at (hlength : xs.length = ys.length)
    (h : ∀ (index : Nat) (x : α) (y : β), xs[index]? = some x → ys[index]? = some y → R x y) :
    List.Forall₂ R xs ys := by
  apply List.forall₂_iff_get.mpr
  refine ⟨hlength, ?_⟩
  intro index hx hy
  exact h index _ _ (List.getElem?_eq_getElem hx) (List.getElem?_eq_getElem hy)

theorem forall₂_modify (h : List.Forall₂ R xs ys) {index : Nat} {change : β → β}
    (hchange : ∀ x y, xs[index]? = some x → R x y → R x (change y)) :
    List.Forall₂ R xs (ys.modify index change) := by
  apply forall₂_of_at
  · rw [List.length_modify]
    exact h.length_eq
  · intro other x found hx hfound
    obtain ⟨old, hold, hrelated⟩ := exists_at h hx
    rw [List.getElem?_modify, hold] at hfound
    cases hfound
    by_cases heq : index = other
    · subst heq
      simp only [if_true]
      exact hchange x old hx hrelated
    · simp only [if_neg heq]
      exact hrelated

end InStep

/-! ## Cells that suit their slots -/

/-- A cell suits its slot, and so do the cells nested in it. -/
inductive Slot.Holds : Slot → Cell → Prop where
  | enable {slot : Slot} {enable : Enable} {present : Bool} :
      slot.item = .enable enable → Holds slot (.enable present)
  | leaf {slot : Slot} {field : Field} {type : LeafType} {value : Scalar} {mode : Mode} :
      slot.item = .field field → field.type = .leaf type → type.Normal value →
      Holds slot (.leaf value mode)
  | record {slot : Slot} {field : Field} {inner : Layout} {cells : List Cell} {mode : Mode} :
      slot.item = .field field → field.type = .record inner →
      List.Forall₂ Holds inner.slots cells → Holds slot (.record cells mode)
  | reserved {slot : Slot} {run : Reserved} : slot.item = .reserved run → Holds slot .reserved

/-- The cells suit the slots of the layout. -/
def Layout.Holds (layout : Layout) (cells : List Cell) : Prop :=
  List.Forall₂ Slot.Holds layout.slots cells

namespace Slot.Holds

variable {slot : Slot} {cell : Cell}

theorem withMode (h : slot.Holds cell) (mode : Mode) : slot.Holds (cell.withMode mode) := by
  cases h with
  | enable hitem => exact .enable hitem
  | leaf hitem htype hnormal => exact .leaf hitem htype hnormal
  | record hitem htype hcells => exact .record hitem htype hcells
  | reserved hitem => exact .reserved hitem

theorem eq_enable (h : slot.Holds cell) {enable : Enable} (henable : slot.item = .enable enable) :
    cell = .enable cell.isSet := by
  cases h with
  | enable _ => rfl
  | leaf hitem _ _ => cases henable.symm.trans hitem
  | record hitem _ _ => cases henable.symm.trans hitem
  | reserved hitem => cases henable.symm.trans hitem

theorem exists_leaf (h : slot.Holds cell) {field : Field} (hfield : slot.item = .field field)
    {type : LeafType} (htype : field.type = .leaf type) :
    ∃ value mode, cell = .leaf value mode ∧ type.Normal value := by
  cases h with
  | enable hitem => cases hfield.symm.trans hitem
  | leaf hitem hleaf hnormal =>
      cases hfield.symm.trans hitem
      cases htype.symm.trans hleaf
      exact ⟨_, _, rfl, hnormal⟩
  | record hitem hrecord _ =>
      cases hfield.symm.trans hitem
      cases htype.symm.trans hrecord
  | reserved hitem => cases hfield.symm.trans hitem

theorem of_valueOf_record (h : slot.Holds cell) {inner : Container}
    (hvalue : slot.valueOf cell = .record inner) :
    ∃ field, slot.item = .field field ∧ field.type = .record inner.layout ∧
      inner.layout.Holds inner.cells := by
  cases h with
  | enable hitem => simp [Slot.valueOf, hitem] at hvalue
  | leaf hitem htype _ => simp [Slot.valueOf, hitem, htype, FieldType.valueOf] at hvalue
  | reserved hitem => simp [Slot.valueOf, hitem] at hvalue
  | record hitem htype hcells =>
      simp only [Slot.valueOf, hitem, htype, FieldType.valueOf, Value.record.injEq] at hvalue
      subst hvalue
      exact ⟨_, hitem, htype, hcells⟩

end Slot.Holds

/-- The layout can be built, and the cells suit it. -/
structure Container.Fits (c : Container) : Prop where
  built : c.layout.Built
  holds : c.layout.Holds c.cells

namespace Layout

variable {layout : Layout} {cells : List Cell}

theorem Holds.cell (h : layout.Holds cells) {index : Nat} {slot : Slot}
    (hslot : layout.slots[index]? = some slot) :
    ∃ cell, cells[index]? = some cell ∧ slot.Holds cell := exists_at h hslot

theorem Holds.modify (h : layout.Holds cells) {index : Nat} {change : Cell → Cell}
    (hchange : ∀ slot cell, layout.slots[index]? = some slot → slot.Holds cell →
      slot.Holds (change cell)) : layout.Holds (cells.modify index change) :=
  forall₂_modify h hchange

theorem Holds.set (h : layout.Holds cells) {index : Nat} {cell : Cell}
    (hcell : ∀ slot, layout.slots[index]? = some slot → slot.Holds cell) :
    layout.Holds (cells.set index cell) := by
  rw [List.set_eq_modify]
  exact h.modify fun slot _ hslot _ => hcell slot hslot

end Layout

/-! ## New and decoded cells -/

namespace Layout

theorem Built.holds_freshCells {layout : Layout} (h : layout.Built) :
    layout.Holds layout.freshCells := by
  refine h.induct ?_
  intro layout h ih
  rw [layout.freshCells_eq_map, Holds, List.forall₂_map_right_iff, List.forall₂_same]
  intro slot hslot
  have hinner := ih slot hslot
  obtain ⟨item, position, link⟩ := slot
  rcases item with ⟨name, type, mode, enabledBy, editable, bit⟩ | enable | run
  · cases type with
    | leaf type => exact .leaf rfl rfl type.normal_default
    | record inner => exact .record rfl rfl (hinner inner rfl)
  · exact .enable rfl
  · exact .reserved rfl

/-- What a slot decodes to suits it, if this holds of the structure inside. -/
theorem Built.holds_of_readCell {layout : Layout} (h : layout.Built) {data : Bytes} {base : Nat}
    (hfit : base + layout.bits ≤ 8 * data.size) {slot : Slot} (hslot : slot ∈ layout.slots)
    (hinner : ∀ inner, slot.item.record? = some inner → ∀ position cells,
      position + inner.bits ≤ 8 * data.size → inner.readAt data position = .ok cells →
        inner.Holds cells)
    {cell : Cell} (hread : slot.readCell layout.slots data base = .ok cell) : slot.Holds cell := by
  have hbuilt : ∀ inner, slot.item.record? = some inner → inner.Built := fun inner hrecord =>
    h.sound.built_of_record? hslot hrecord
  obtain ⟨item, position, link⟩ := slot
  rcases item with ⟨name, type, mode, enabledBy, editable, bit⟩ | enable | run
  · simp only [Slot.readCell] at hread
    split at hread
    · cases type with
      | leaf type =>
          obtain ⟨value, hvalue, rfl⟩ := Fallible.map_eq_ok.mp hread
          have hend : position.offset + type.bits ≤ layout.bits := h.sound.fits_field hslot rfl
          have hwidth : base + position.offset + type.bits ≤ 8 * data.size := by omega
          rw [LeafType.readAt_eq name type hwidth] at hvalue
          exact .leaf rfl rfl (LeafType.normal_of_decode (Fallible.eq_ok_of_mapError hvalue))
      | record inner =>
          obtain ⟨cells, hcells, rfl⟩ := Fallible.map_eq_ok.mp hread
          have hend : position.offset + inner.bits ≤ layout.bits := h.sound.fits_field hslot rfl
          have hwidth : base + position.offset + inner.bits ≤ 8 * data.size := by omega
          exact .record rfl rfl (hinner inner rfl _ cells hwidth hcells)
    · cases hread
      cases type with
      | leaf type => exact .leaf rfl rfl type.normal_default
      | record inner => exact .record rfl rfl (hbuilt inner rfl).holds_freshCells
  · cases hread
    exact .enable rfl
  · cases hread
    exact .reserved rfl

theorem Built.holds_of_readAt {layout : Layout} (h : layout.Built) (data : Bytes) :
    ∀ base cells, base + layout.bits ≤ 8 * data.size →
      layout.readAt data base = .ok cells → layout.Holds cells := by
  refine h.induct ?_
  intro layout h ih base cells hfit hread
  rw [h.sound.readAt_eq_mapM hfit, Fallible.mapM_eq_ok] at hread
  apply forall₂_of_at hread.length_eq
  intro index slot cell hslot hcell
  have hmem : slot ∈ layout.slots := List.mem_of_getElem? hslot
  exact h.holds_of_readCell hfit hmem (ih slot hmem) (forall₂_at hread hslot hcell)

/-- Decoded cells open the fields that the bits open. -/
theorem Sound.isOpen_of_readCells {layout : Layout} (h : layout.Sound) {data : Bytes} {base : Nat}
    {cells : List Cell}
    (hcells : List.Forall₂ (fun slot cell => slot.readCell layout.slots data base = .ok cell)
      layout.slots cells)
    {slot : Slot} (hslot : slot ∈ layout.slots) {field : Field}
    (hfield : slot.item = .field field) :
    Cell.isOpen cells slot.link = Slot.opens layout.slots data base slot.link := by
  cases hlink : slot.link with
  | none => rfl
  | some index =>
      obtain ⟨gate, enable, hgate, henable⟩ := h.isEnable_of_link hslot hfield hlink
      obtain ⟨cell, hcell, hread⟩ := exists_at hcells hgate
      simp only [Slot.readCell, henable, Slot.gateCell, Except.ok.injEq] at hread
      have hbits : gate.bits = enable.bits := by rw [Slot.bits, henable, Item.bits]
      simp only [Cell.isOpen, Cell.isSetAt, Slot.opens, hgate, hcell, ← hread, Cell.isSet, hbits]

end Layout

/-! ## Operations -/

/-- The container that an operation stores. -/
def Operation.operand? : Operation → Option Container
  | .assignAt _ (some (.record operand)) => some operand
  | .assign _ (.record operand) => some operand
  | .within _ operation => operation.operand?
  | _ => none

/-- A value that an assignment may carry: a structure must fit its own layout. -/
def Value.Fits : Value → Prop
  | .scalar _ => True
  | .record operand => operand.Fits

theorem Slot.holds_of_accept {slot : Slot} {field : Field} (hfield : slot.item = .field field)
    {mode : Mode} {value : Value} (hvalue : value.Fits) {cell : Cell}
    (h : field.type.accept mode value = .ok cell) : slot.Holds cell := by
  cases htype : field.type with
  | leaf type =>
      rw [htype] at h
      cases value with
      | scalar value =>
          obtain ⟨normal, hnormal, rfl⟩ := Fallible.map_eq_ok.mp h
          exact .leaf hfield htype (LeafType.normal_of_coerce hnormal)
      | record operand => cases h
  | record inner =>
      rw [htype] at h
      cases value with
      | scalar value => cases h
      | record operand =>
          simp only [FieldType.accept] at h
          split at h
          · next hlayout =>
              cases h
              exact .record hfield htype (hlayout ▸ hvalue.holds)
          · cases h

namespace Container

variable {c changed : Container}

theorem Fits.put (h : c.Fits) {index : Nat} {cell : Cell}
    (hcell : ∀ slot, c.layout.slots[index]? = some slot → slot.Holds cell) :
    (c.put index cell).Fits :=
  ⟨h.built, h.holds.set hcell⟩

theorem Fits.mark (h : c.Fits) {slot : Slot} (hslot : slot ∈ c.layout.slots) {field : Field}
    (hfield : slot.item = .field field) (present : Bool) : (c.mark slot.link present).Fits := by
  cases hlink : slot.link with
  | none => exact h
  | some index =>
      obtain ⟨gate, enable, hgate, henable⟩ :=
        h.built.sound.isEnable_of_link hslot hfield hlink
      apply h.put
      intro other hother
      rw [hgate] at hother
      cases hother
      exact .enable henable

theorem layout_mark (link : Option Nat) (present : Bool) :
    (c.mark link present).layout = c.layout := by
  cases link with
  | none => rfl
  | some index => rfl

theorem link_of_slot {index : Nat} {slot : Slot} (hslot : c.layout.slots[index]? = some slot) :
    (c.layout.slot? index).bind Slot.link = slot.link := by
  rw [Layout.slot?, hslot]
  rfl

theorem Fits.enable_cell (h : c.Fits) {gate : Nat} {slot : Slot}
    (hslot : c.layout.slots[gate]? = some slot) {enable : Enable}
    (henable : slot.item = .enable enable) :
    c.cells[gate]? = some (.enable (Cell.isSetAt c.cells gate)) := by
  obtain ⟨cell, hcell, hholds⟩ := h.holds.cell hslot
  rw [Cell.isSetAt, hcell]
  exact congrArg some (hholds.eq_enable henable)

/-- A change keeps the layout, and its cells suit it. -/
def Keeps (c changed : Container) : Prop := changed.layout = c.layout ∧ changed.Fits

theorem Fits.assignAt (h : c.Fits) {index : Nat} {value : Option Value}
    (hvalue : ∀ given, value = some given → given.Fits)
    (hassign : c.assignAt index value = .ok changed) : c.Keeps changed := by
  unfold Container.assignAt at hassign
  split at hassign
  · cases hassign
  · next slot hslot =>
      have hmem : slot ∈ c.layout.slots := List.mem_of_getElem? hslot
      split at hassign
      · cases hassign
      · next enable henable =>
          obtain ⟨present, _, rfl⟩ := Fallible.map_eq_ok.mp hassign
          refine ⟨rfl, h.put ?_⟩
          intro other hother
          cases hslot.symm.trans hother
          exact .enable henable
      · next field hfield =>
          split at hassign
          · cases hassign
          · split at hassign
            · split at hassign
              · cases hassign
              · cases hassign
                exact ⟨layout_mark slot.link false, h.mark hmem hfield false⟩
            · next given =>
                obtain ⟨cell, hcell, rfl⟩ := Fallible.map_eq_ok.mp hassign
                have hput : (c.put index cell).Fits := by
                  apply h.put
                  intro other hother
                  cases hslot.symm.trans hother
                  exact Slot.holds_of_accept hfield (hvalue given rfl) hcell
                exact ⟨layout_mark slot.link true, hput.mark hmem hfield true⟩

theorem Fits.assignSymbol (h : c.Fits) {name symbol : String}
    (hassign : c.assignSymbol name symbol = .ok changed) : c.Keeps changed := by
  obtain ⟨index, _, hsymbol⟩ := Fallible.bind_eq_ok.mp hassign
  split at hsymbol
  · cases hsymbol
  · split at hsymbol
    · cases hsymbol
    · apply h.assignAt _ hsymbol
      intro given hgiven
      cases hgiven
      trivial

theorem field_of_modeIndex {name : String} {index : Nat} (h : c.modeIndex name = .ok index) :
    ∃ slot field, c.layout.slots[index]? = some slot ∧ slot.item = .field field := by
  unfold modeIndex at h
  split at h
  · cases h
  · split at h
    · next field hfield =>
        cases h
        obtain ⟨slot, hslot, hitem⟩ := Option.bind_eq_some_iff.mp hfield
        exact ⟨slot, field, hslot, Item.eq_field_of_field? hitem⟩
    · cases h

theorem Fits.changeMode (h : c.Fits) {name : String} {requested : Mode}
    (hchange : c.changeMode name requested = .ok changed) : c.Keeps changed := by
  obtain ⟨index, hindex, hrest⟩ := Fallible.bind_eq_ok.mp hchange
  obtain ⟨next, _, hmode⟩ := Fallible.bind_eq_ok.mp hrest
  obtain ⟨slot, field, hslot, hfield⟩ := field_of_modeIndex hindex
  have hmem : slot ∈ c.layout.slots := List.mem_of_getElem? hslot
  have hmodified : (⟨c.layout, c.cells.modify index (Cell.withMode next)⟩ : Container).Fits := by
    exact ⟨h.built, h.holds.modify fun _ _ _ hholds => hholds.withMode next⟩
  simp only at hmode
  split at hmode
  · cases hmode
    exact ⟨rfl, hmodified⟩
  · next present _ =>
      cases hmode
      rw [link_of_slot hslot]
      exact ⟨layout_mark slot.link present, hmodified.mark hmem hfield present⟩

/-- A structure inside a container fits its own layout, which is the one of its field. -/
theorem Fits.nestedAt (h : c.Fits) {index : Nat} {inner : Container}
    (hnested : c.nestedAt index = .ok inner) :
    inner.Fits ∧ ∃ slot field, c.layout.slots[index]? = some slot ∧ slot.item = .field field ∧
      field.type = .record inner.layout := by
  unfold Container.nestedAt at hnested
  split at hnested
  · next slot cell hslot hcell =>
      obtain ⟨found, hfound, hholds⟩ := h.holds.cell hslot
      cases hcell.symm.trans hfound
      split at hnested
      · next found hvalue =>
          cases hnested
          obtain ⟨field, hitem, htype, hcells⟩ := hholds.of_valueOf_record hvalue
          have hbuilt : inner.layout.Built :=
            h.built.sound.built_of_record? (List.mem_of_getElem? hslot)
              (Item.record?_of_field hitem htype)
          exact ⟨⟨hbuilt, hcells⟩, slot, field, hslot, hitem, htype⟩
      · cases hnested
  · cases hnested

theorem Fits.enter (h : c.Fits) {name : String} {index : Nat} {inner : Container}
    (henter : c.enter name = .ok (changed, index, inner)) :
    c.Keeps changed ∧ inner.Fits ∧ ∃ slot field, c.layout.slots[index]? = some slot ∧
      slot.item = .field field ∧ field.type = .record inner.layout := by
  obtain ⟨found, _, hrest⟩ := Fallible.bind_eq_ok.mp henter
  obtain ⟨nested, hnested, hresult⟩ := Fallible.bind_eq_ok.mp hrest
  cases hresult
  obtain ⟨hfits, slot, field, hslot, hfield, htype⟩ := h.nestedAt hnested
  rw [link_of_slot hslot]
  refine ⟨⟨layout_mark slot.link true, ?_⟩, hfits, slot, field, hslot, hfield, htype⟩
  exact h.mark (List.mem_of_getElem? hslot) hfield true

end Container

namespace Operation

theorem keeps_settle {ε : Type} {c : Container} (h : c.Fits) (refuse : ε → OperationError)
    {outcome : Except ε Container} (hok : ∀ changed, outcome = .ok changed → c.Keeps changed) :
    c.Keeps (settle c refuse outcome).1 := by
  cases outcome with
  | error cause => exact ⟨rfl, h⟩
  | ok changed => exact hok changed rfl

/-- One operation keeps a container that fits, whether it succeeds or is refused. -/
theorem keeps_run (operation : Operation) {c : Container} (h : c.Fits)
    (hoperand : ∀ operand, operation.operand? = some operand → operand.Fits) :
    c.Keeps (operation.run c).1 := by
  induction operation generalizing c with
  | assignAt index value =>
      apply keeps_settle h
      intro changed hchanged
      apply h.assignAt _ hchanged
      rintro (value | operand) rfl
      · trivial
      · exact hoperand operand rfl
  | assign name value =>
      apply keeps_settle h
      intro changed hchanged
      obtain ⟨index, _, hassign⟩ := Fallible.bind_eq_ok.mp hchanged
      apply h.assignAt _ hassign
      rintro given hgiven
      cases hgiven
      cases value with
      | scalar value => trivial
      | record operand => exact hoperand operand rfl
  | clear name =>
      apply keeps_settle h
      intro changed hchanged
      obtain ⟨index, _, hassign⟩ := Fallible.bind_eq_ok.mp hchanged
      apply h.assignAt _ hassign
      rintro given hgiven
      cases hgiven
  | assignSymbol name symbol =>
      apply keeps_settle h
      intro changed hchanged
      exact h.assignSymbol hchanged
  | changeMode name requested =>
      apply keeps_settle h
      intro changed hchanged
      exact h.changeMode hchanged
  | touch name =>
      apply keeps_settle h
      intro changed hchanged
      obtain ⟨⟨marked, index, inner⟩, henter, rfl⟩ := Fallible.map_eq_ok.mp hchanged
      exact (h.enter henter).1
  | within name operation ih =>
      rw [run, Container.within]
      cases henter : c.enter name with
      | error cause => exact ⟨rfl, h⟩
      | ok entered =>
          obtain ⟨marked, index, inner⟩ := entered
          obtain ⟨⟨hlayout, hmarked⟩, hinner, slot, field, hslot, hfield, htype⟩ := h.enter henter
          -- The inner run keeps the inner layout, so its cells go back where they came from.
          obtain ⟨hsame, hchanged⟩ := ih hinner hoperand
          refine ⟨hlayout, hmarked.put ?_⟩
          intro other hother
          rw [hlayout, hslot] at hother
          cases hother
          refine .record hfield htype ?_
          rw [← hsame]
          exact hchanged.holds

end Operation

namespace Container

/-- The containers that a program can come by: new ones, decoded ones, what operations make of them
with other such containers as operands, and the structures inside. -/
inductive Reachable : Container → Prop where
  | new {layout : Layout} : layout.Built → Reachable (.new layout)
  | unpack {layout : Layout} {data : Bytes} {c : Container} :
      layout.Built → Container.unpack layout data = .ok c → Reachable c
  | run {c : Container} {operation : Operation} :
      Reachable c → (∀ operand, operation.operand? = some operand → Reachable operand) →
      Reachable (operation.run c).1
  | nested {c inner : Container} {index : Nat} :
      Reachable c → c.nestedAt index = .ok inner → Reachable inner

/-- Every reachable container fits its layout, whatever its history. -/
theorem Reachable.fits {c : Container} (h : c.Reachable) : c.Fits := by
  induction h with
  | new hbuilt => exact ⟨hbuilt, hbuilt.holds_freshCells⟩
  | @unpack layout data c hbuilt hunpack =>
      rw [Container.unpack] at hunpack
      split at hunpack
      · cases hunpack
      · next hsize =>
          obtain ⟨cells, hcells, rfl⟩ := Fallible.map_eq_ok.mp hunpack
          have hfit := Layout.fits_of_bytes_le (Nat.le_of_not_lt hsize)
          exact ⟨hbuilt, hbuilt.holds_of_readAt data 0 cells hfit hcells⟩
  | run _ _ ih ihoperand => exact (Operation.keeps_run _ ih ihoperand).2
  | nested _ hnested ih => exact (ih.nestedAt hnested).1

end Container

end RadioPacket
