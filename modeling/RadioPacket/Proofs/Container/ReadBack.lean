import RadioPacket.Proofs.Container.WireFormat

/-!
# Reading back

Bits that are the stream of a structure are read slot by slot, and each slot finds its own part of
the stream.  What comes back shows the same presence and the same values, except that a fixed-point
number comes back as the number that its pattern stands for.
-/

namespace RadioPacket

mutual

/-- What every item of the first container shows comes back in the second one. -/
inductive Container.ReadsBack : Container → Container → Prop where
  | items {c back : Container} :
      back.layout = c.layout →
      (∀ index, index < c.layout.slots.length → Container.ItemReadsBack c back index) →
      Container.ReadsBack c back

/-- What the item at an index shows comes back in the second container. -/
inductive Container.ItemReadsBack : Container → Container → Nat → Prop where
  | reserved {c back : Container} {index : Nat} {slot : Slot} {run : Reserved} :
      c.layout.slot? index = some slot → slot.item = .reserved run →
      Container.ItemReadsBack c back index
  | enable {c back : Container} {index : Nat} {slot : Slot} {enable : Enable} :
      c.layout.slot? index = some slot → slot.item = .enable enable →
      back.get? index = c.get? index → Container.ItemReadsBack c back index
  | absent {c back : Container} {index : Nat} {slot : Slot} {field : Field} :
      c.layout.slot? index = some slot → slot.item = .field field →
      c.get? index = none → back.get? index = none → Container.ItemReadsBack c back index
  | identical {c back : Container} {index : Nat} {slot : Slot} {field : Field} {type : LeafType}
      {value : Scalar} :
      c.layout.slot? index = some slot → slot.item = .field field → field.type = .leaf type →
      ¬ type.IsFixedPoint →
      c.get? index = some (.scalar value) → back.get? index = some (.scalar value) →
      Container.ItemReadsBack c back index
  | fixedPoint {c back : Container} {index : Nat} {slot : Slot} {field : Field} {type : LeafType}
      {value read : Scalar} {pattern : Nat} :
      c.layout.slot? index = some slot → slot.item = .field field → field.type = .leaf type →
      type.IsFixedPoint →
      type.encode value = .ok pattern → type.decode pattern = .ok read →
      c.get? index = some (.scalar value) → back.get? index = some (.scalar read) →
      Container.ItemReadsBack c back index
  | record {c back inner innerBack : Container} {index : Nat} {slot : Slot} {field : Field} :
      c.layout.slot? index = some slot → slot.item = .field field →
      field.type = .record inner.layout →
      c.get? index = some (.record inner) → back.get? index = some (.record innerBack) →
      Container.ReadsBack inner innerBack → Container.ItemReadsBack c back index

end

/-! ## Cells that come back -/

/-- A cell of the first container comes back as a cell of the second one; `all` holds the cells of
the first.  What comes back for an absent field does not matter. -/
inductive Slot.Returns (all : List Cell) : Slot → Cell → Cell → Prop where
  | enable {slot : Slot} {enable : Enable} {present : Bool} :
      slot.item = .enable enable → Returns all slot (.enable present) (.enable present)
  | reserved {slot : Slot} {run : Reserved} {cell back : Cell} :
      slot.item = .reserved run → Returns all slot cell back
  | absent {slot : Slot} {field : Field} {cell back : Cell} :
      slot.item = .field field → Cell.isOpen all slot.link = false → Returns all slot cell back
  | leaf {slot : Slot} {field : Field} {type : LeafType} {value read : Scalar}
      {mode backMode : Mode} :
      slot.item = .field field → field.type = .leaf type → Cell.isOpen all slot.link = true →
      type.Normal value → type.decode (type.pattern value) = .ok read →
      Returns all slot (.leaf value mode) (.leaf read backMode)
  | record {slot : Slot} {field : Field} {inner : Layout} {cells back : List Cell}
      {mode backMode : Mode} :
      slot.item = .field field → field.type = .record inner → Cell.isOpen all slot.link = true →
      Container.ReadsBack ⟨inner, cells⟩ ⟨inner, back⟩ →
      Returns all slot (.record cells mode) (.record back backMode)

namespace Slot

/-- In bytes that hold the streams of slots one behind the other, each slot finds its own. -/
theorem Tile.window_slot {start : Nat} {slots : List Slot} (h : Tile start slots)
    {cells all : List Cell} (hcells : List.Forall₂ (Written all) slots cells)
    {data : Bytes} {base : Nat}
    (hwindow : Bits.window data (base + start) (Item.totalBits (slots.map Slot.item)) =
      streamAll slots cells all) :
    List.Forall₂ (fun slot cell =>
      Bits.window data (base + slot.position.offset) slot.bits = slot.stream all cell)
      slots cells := by
  induction hcells generalizing start with
  | nil => exact .nil
  | @cons slot cell slots cells hslot hrest ih =>
      obtain ⟨hposition, htile⟩ := h
      have hbits : slot.item.bits = slot.bits := rfl
      rw [List.map_cons, Item.totalBits, hbits, Bits.window_add, streamAll_cons] at hwindow
      obtain ⟨hfirst, hbehind⟩ := List.append_inj hwindow (by rw [Bits.length_window, hslot.width])
      rw [Nat.add_assoc] at hbehind
      refine .cons ?_ (ih htile hbehind)
      rw [hposition]
      exact hfirst

/-- A slot whose bits are its stream reads back, if the structure inside does. -/
theorem Holds.returns {slot : Slot} {cell : Cell} (h : slot.Holds cell) {slots : List Slot}
    {all : List Cell} {data : Bytes} {base : Nat}
    (hwide : slot.item.field?.isNone → 0 < slot.bits)
    (hfit : base + slot.position.offset + slot.bits ≤ 8 * data.size)
    (hwindow : Bits.window data (base + slot.position.offset) slot.bits = slot.stream all cell)
    (hopens : slot.item.field?.isSome →
      opens slots data base slot.link = Cell.isOpen all slot.link)
    (hinner : ∀ inner, slot.item.record? = some inner → ∀ cells position, inner.Holds cells →
      position + inner.bits ≤ 8 * data.size →
      Bits.window data position inner.bits = inner.stream cells →
      ∃ back, inner.readAt data position = .ok back ∧
        Container.ReadsBack ⟨inner, cells⟩ ⟨inner, back⟩) :
    ∃ back, slot.readCell slots data base = .ok back ∧ Returns all slot cell back := by
  cases h with
  | @enable _ enable present hitem =>
      have hpositive := hwide (by rw [hitem]; rfl)
      have hbits : slot.bits = enable.bits := by rw [Slot.bits, hitem]; rfl
      have hstate : (Bits.window data (base + slot.position.offset) enable.bits).any id =
          present := by
        rw [← hbits, hwindow]
        simp only [stream, hitem, Cell.isSet, List.any_replicate]
        rw [if_neg (by omega)]
        rfl
      refine ⟨.enable present, ?_, .enable hitem⟩
      simp only [readCell, gateCell, hitem, hstate]
  | @leaf _ field type value mode hitem htype hnormal =>
      have hlink := hopens (by rw [hitem]; rfl)
      cases hopen : Cell.isOpen all slot.link with
      | false =>
          rw [hopen] at hlink
          refine ⟨slot.freshCell slots, ?_, .absent hitem hopen⟩
          simp [readCell, hitem, hlink]
      | true =>
          rw [hopen] at hlink
          have hbits : slot.bits = type.bits := by
            rw [Slot.bits, hitem, Item.bits, Field.bits, htype]
            rfl
          have hpattern : Bits.toNat
              (Bits.window data (base + slot.position.offset) type.bits) =
                type.pattern value := by
            rw [← hbits, hwindow]
            simp only [stream, hitem, hopen, if_true, htype, FieldType.stream]
            rw [Bits.toNat_ofNat, Nat.mod_eq_of_lt (type.pattern_lt value)]
          obtain ⟨read, hread⟩ := LeafType.exists_decode_pattern hnormal
          refine ⟨.leaf read field.mode, ?_, .leaf hitem htype hopen hnormal hread⟩
          rw [hbits] at hfit
          simp only [readCell, hitem, hlink, if_true, htype, FieldType.readAt]
          rw [LeafType.readAt_eq field.name type hfit, hpattern, hread]
          rfl
  | @record _ field inner cells mode hitem htype hcells =>
      have hlink := hopens (by rw [hitem]; rfl)
      cases hopen : Cell.isOpen all slot.link with
      | false =>
          rw [hopen] at hlink
          refine ⟨slot.freshCell slots, ?_, .absent hitem hopen⟩
          simp [readCell, hitem, hlink]
      | true =>
          rw [hopen] at hlink
          have hbits : slot.bits = inner.bits := by
            rw [Slot.bits, hitem, Item.bits, Field.bits, htype]
            rfl
          have hstream : Bits.window data (base + slot.position.offset) inner.bits =
              inner.stream cells := by
            rw [← hbits, hwindow]
            simp only [stream, hitem, hopen, if_true, htype, FieldType.stream]
          have hrecord : slot.item.record? = some inner := Item.record?_of_field hitem htype
          rw [hbits] at hfit
          obtain ⟨back, hback, hreads⟩ := hinner inner hrecord cells _ hcells hfit hstream
          refine ⟨.record back field.mode, ?_, .record hitem htype hopen hreads⟩
          simp only [readCell, hitem, hlink, if_true, htype, FieldType.readAt]
          rw [hback]
          rfl
  | @reserved _ run hitem =>
      refine ⟨slot.gateCell slots data base, ?_, .reserved hitem⟩
      simp only [readCell, hitem]

end Slot

theorem Slot.Returns.item {c back : Container} {index : Nat} {slot : Slot} {cell cellBack : Cell}
    (h : Slot.Returns c.cells slot cell cellBack) (hlayout : back.layout = c.layout)
    (hslot : c.layout.slots[index]? = some slot) (hcell : c.cells[index]? = some cell)
    (hback : back.cells[index]? = some cellBack)
    (hlink : slot.item.field?.isSome →
      Cell.isOpen back.cells slot.link = Cell.isOpen c.cells slot.link) :
    c.ItemReadsBack back index := by
  have hslotBack : back.layout.slots[index]? = some slot := by rw [hlayout, hslot]
  cases h with
  | enable hitem =>
      refine .enable hslot hitem ?_
      rw [Container.get?_enable hslotBack hback hitem, Container.get?_enable hslot hcell hitem]
  | reserved hitem => exact .reserved hslot hitem
  | absent hitem hopen =>
      have hget := Container.get?_field hslot hcell hitem
      have hgetBack := Container.get?_field hslotBack hback hitem
      rw [hopen] at hget
      rw [hlink (by rw [hitem]; rfl), hopen] at hgetBack
      exact .absent hslot hitem hget hgetBack
  | @leaf field type value read mode backMode hitem htype hopen hnormal hread =>
      have hget := Container.get?_field hslot hcell hitem
      have hgetBack := Container.get?_field hslotBack hback hitem
      rw [hopen, htype] at hget
      rw [hlink (by rw [hitem]; rfl), hopen, htype] at hgetBack
      by_cases hfixed : type.IsFixedPoint
      · exact .fixedPoint hslot hitem htype hfixed (LeafType.encode_of_normal hnormal) hread hget
          hgetBack
      · rw [LeafType.decode_pattern hnormal hfixed] at hread
        cases hread
        exact .identical hslot hitem htype hfixed hget hgetBack
  | @record field inner cells innerBack mode backMode hitem htype hopen hreads =>
      have hget := Container.get?_field hslot hcell hitem
      have hgetBack := Container.get?_field hslotBack hback hitem
      rw [hopen, htype] at hget
      rw [hlink (by rw [hitem]; rfl), hopen, htype] at hgetBack
      exact .record hslot hitem htype hget hgetBack hreads

namespace Layout

/-- Where the bits are the streams of the slots, they open the fields that the cells open. -/
theorem Built.opens_eq_isOpen {layout : Layout} (h : layout.Built) {cells : List Cell}
    (hholds : layout.Holds cells) {data : Bytes} {base : Nat}
    (hwindows : List.Forall₂ (fun slot cell =>
      Bits.window data (base + slot.position.offset) slot.bits = slot.stream cells cell)
      layout.slots cells)
    {slot : Slot} (hslot : slot ∈ layout.slots) (hfield : slot.item.field?.isSome) :
    Slot.opens layout.slots data base slot.link = Cell.isOpen cells slot.link := by
  obtain ⟨field, hsome⟩ := Option.isSome_iff_exists.mp hfield
  cases hlink : slot.link with
  | none => rfl
  | some index =>
      obtain ⟨gate, enable, hgate, henable⟩ :=
        h.sound.isEnable_of_link hslot (Item.eq_field_of_field? hsome) hlink
      obtain ⟨cell, hcell, _⟩ := hholds.cell hgate
      have hwide : 0 < gate.bits := h.sound.bits_pos (List.mem_of_getElem? hgate)
      have hbits : gate.bits = enable.bits := by rw [Slot.bits, henable]; rfl
      have hwindow := forall₂_at hwindows hgate hcell
      simp only [Slot.stream, henable] at hwindow
      simp only [Slot.opens, Cell.isOpen, Cell.isSetAt, hgate, hcell, hwindow,
        List.any_replicate]
      rw [if_neg (by omega)]
      rfl

theorem Built.isOpen_back {layout : Layout} (h : layout.Built) {cells back : List Cell}
    (hholds : layout.Holds cells)
    (hreturns : ∀ (index : Nat) (slot : Slot) (cell : Cell), layout.slots[index]? = some slot →
      cells[index]? = some cell →
        ∃ cellBack, back[index]? = some cellBack ∧ Slot.Returns cells slot cell cellBack)
    {slot : Slot} (hslot : slot ∈ layout.slots) (hfield : slot.item.field?.isSome) :
    Cell.isOpen back slot.link = Cell.isOpen cells slot.link := by
  obtain ⟨field, hsome⟩ := Option.isSome_iff_exists.mp hfield
  cases hlink : slot.link with
  | none => rfl
  | some index =>
      obtain ⟨gate, enable, hgate, henable⟩ :=
        h.sound.isEnable_of_link hslot (Item.eq_field_of_field? hsome) hlink
      obtain ⟨cell, hcell, _⟩ := hholds.cell hgate
      obtain ⟨cellBack, hback, hreturn⟩ := hreturns index gate cell hgate hcell
      have hsame : cellBack = cell := by
        cases hreturn with
        | enable _ => rfl
        | reserved hitem => cases henable.symm.trans hitem
        | absent hitem _ => cases henable.symm.trans hitem
        | leaf hitem _ _ _ _ => cases henable.symm.trans hitem
        | record hitem _ _ _ => cases henable.symm.trans hitem
      simp only [Cell.isOpen, Cell.isSetAt, hcell, hback, hsame]

theorem Built.window_slots {layout : Layout} (h : layout.Built) {cells : List Cell}
    (hholds : layout.Holds cells) {data : Bytes} {base : Nat}
    (hwindow : Bits.window data base layout.bits = layout.stream cells) :
    List.Forall₂ (fun slot cell =>
      Bits.window data (base + slot.position.offset) slot.bits = slot.stream cells cell)
      layout.slots cells := by
  have hwritten : List.Forall₂ (Slot.Written cells) layout.slots cells := by
    apply h.sound.written_slots hholds
    intro slot hslot inner hinner
    exact (h.sound.built_of_record? hslot hinner).written
  apply h.sound.tile.window_slot hwritten
  have htotal : Item.totalBits (layout.slots.map Slot.item) = layout.bits := h.sound.total
  rw [htotal, Nat.add_zero, hwindow]
  obtain ⟨name, slots, bits, warnings, dynamicSize⟩ := layout
  rfl

/-- Bits that are the stream of some cells are read back as these cells. -/
theorem Built.readsBack {layout : Layout} (h : layout.Built) (data : Bytes) :
    ∀ cells base, layout.Holds cells → base + layout.bits ≤ 8 * data.size →
      Bits.window data base layout.bits = layout.stream cells →
      ∃ back, layout.readAt data base = .ok back ∧
        Container.ReadsBack ⟨layout, cells⟩ ⟨layout, back⟩ := by
  refine h.induct ?_
  intro layout h ih cells base hholds hfit hwindow
  -- The bits of the enables open the same fields as the cells, so each slot can be read by itself.
  have hwindows := h.window_slots hholds hwindow
  have hslots : List.Forall₂ (fun slot cell => ∃ cellBack,
      slot.readCell layout.slots data base = .ok cellBack ∧
        Slot.Returns cells slot cell cellBack) layout.slots cells := by
    apply forall₂_of_at hholds.length_eq
    intro index slot cell hslot hcell
    have hmem : slot ∈ layout.slots := List.mem_of_getElem? hslot
    have hwide : 0 < slot.bits := h.sound.bits_pos hmem
    have hend := h.sound.fits hmem
    exact (forall₂_at hholds hslot hcell).returns (fun _ => hwide) (by omega)
      (forall₂_at hwindows hslot hcell) (h.opens_eq_isOpen hholds hwindows hmem) (ih slot hmem)
  obtain ⟨back, hback, hreturns⟩ := Fallible.exists_mapM hslots
  refine ⟨back, (h.sound.readAt_eq_mapM hfit).trans hback, .items rfl ?_⟩
  intro index hindex
  have hslot := List.getElem?_eq_getElem hindex
  obtain ⟨cell, hcell, _⟩ := hholds.cell hslot
  obtain ⟨cellBack, hfound, hreturn⟩ := hreturns index _ cell hslot hcell
  exact hreturn.item rfl hslot hcell hfound
    (h.isOpen_back hholds hreturns (List.mem_of_getElem? hslot))

end Layout

end RadioPacket
