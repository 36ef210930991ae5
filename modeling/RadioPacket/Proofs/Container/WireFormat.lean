import RadioPacket.Proofs.Container.Reachable

/-!
# The wire format

Packing writes at offsets, one structure inside the other.  Because the slots of a layout stand one
behind the other, every writer puts the stream of its slot in front of the streams of the slots
behind it, and nothing else; packing a container therefore gives its stream, filled up with zeros to
a whole number of bytes.  What the stream is made of is spelled out in terms of what the container
shows to its reader.
-/

namespace RadioPacket

/-- Writing the slot puts its stream at its place, and the stream is as wide as the slot. -/
structure Slot.Written (all : List Cell) (slot : Slot) (cell : Cell) : Prop where
  width : (slot.stream all cell).length = slot.bits
  puts : ∀ base, Bits.Puts (slot.write all base cell) (base + slot.position.offset)
    (slot.stream all cell)

/-- Writing the structure puts its stream where it starts, and the stream is as wide as the
layout. -/
structure Layout.Written (layout : Layout) (cells : List Cell) : Prop where
  width : (layout.stream cells).length = layout.bits
  puts : ∀ base, Bits.Puts (layout.writeInto cells base) base (layout.stream cells)

theorem Enable.ofNat_pattern {bits : Nat} (hbits : bits ≤ Bits.maxWidth) (present : Bool) :
    Bits.ofNat bits (Enable.pattern bits present) = List.replicate bits present := by
  cases present with
  | false => exact Bits.ofNat_zero bits
  | true => exact Bits.ofNat_mask hbits

namespace Slot

/-- A field is written where it is present, and leaves zeros where it is absent. -/
theorem written_of_field {slot : Slot} {field : Field} (hitem : slot.item = .field field)
    {cell : Cell} (hwidth : (field.type.stream cell).length = field.type.bits)
    (hputs : ∀ position, Bits.Puts (field.type.writeInto cell position) position
      (field.type.stream cell)) (all : List Cell) : slot.Written all cell := by
  have hbits : slot.bits = field.type.bits := by
    rw [Slot.bits, hitem]
    rfl
  by_cases hopen : Cell.isOpen all slot.link = true
  · have hstream : slot.stream all cell = field.type.stream cell := by
      simp only [stream, hitem, if_pos hopen]
    constructor
    · rw [hstream, hwidth, hbits]
    · intro base
      rw [hstream]
      refine (hputs (base + slot.position.offset)).congr ?_
      intro data
      simp only [write, hitem, if_pos hopen]
  · have hstream : slot.stream all cell = Bits.blank field.bits := by
      simp only [stream, hitem, if_neg hopen]
    constructor
    · rw [hstream, Bits.length_blank, hbits]
      rfl
    · intro base
      rw [hstream]
      refine (Bits.Puts.skip (base + slot.position.offset) field.bits).congr ?_
      intro data
      simp only [write, hitem, if_neg hopen]
      rfl

theorem Holds.written {slot : Slot} {cell : Cell} (h : slot.Holds cell)
    (hgate : slot.item.GateFits)
    (hinner : ∀ inner, slot.item.record? = some inner → ∀ cells, inner.Holds cells →
      inner.Written cells) (all : List Cell) : slot.Written all cell := by
  cases h with
  | @enable _ enable present hitem =>
      have hstream : slot.stream all (.enable present) = List.replicate enable.bits present := by
        simp only [stream, hitem, Cell.isSet]
      rw [hitem] at hgate
      constructor
      · rw [hstream, List.length_replicate, Slot.bits, hitem]
        rfl
      · intro base
        rw [hstream, ← Enable.ofNat_pattern hgate]
        refine (Bits.Puts.write (base + slot.position.offset) _ hgate).congr ?_
        intro data
        simp only [write, hitem, Cell.isSet]
  | @leaf _ field type value mode hitem htype hnormal =>
      apply written_of_field hitem
      · rw [htype]
        exact Bits.length_ofNat type.bits (type.pattern value)
      · intro position
        rw [htype]
        exact Bits.Puts.write position (type.pattern value) type.bits_le
  | @record _ field inner cells mode hitem htype hcells =>
      have hrecord : slot.item.record? = some inner := Item.record?_of_field hitem htype
      have hwritten := hinner inner hrecord cells hcells
      apply written_of_field hitem
      · rw [htype]
        exact hwritten.width
      · intro position
        rw [htype]
        exact hwritten.puts position
  | @reserved _ run hitem =>
      have hstream : slot.stream all .reserved = Bits.blank run.bits := by
        simp only [stream, hitem]
      constructor
      · rw [hstream, Bits.length_blank, Slot.bits, hitem]
        rfl
      · intro base
        rw [hstream]
        refine (Bits.Puts.skip (base + slot.position.offset) run.bits).congr ?_
        intro data
        simp only [write, hitem]
        rfl

theorem Tile.written {start : Nat} {slots : List Slot} (h : Tile start slots)
    {cells all : List Cell} (hcells : List.Forall₂ (Written all) slots cells) :
    (streamAll slots cells all).length = Item.totalBits (slots.map Slot.item) ∧
      ∀ base, Bits.Puts (writeAll slots cells all base) (base + start)
        (streamAll slots cells all) := by
  induction hcells generalizing start with
  | nil => exact ⟨rfl, fun base => Bits.Puts.skip (base + start) 0⟩
  | @cons slot cell slots cells hslot hrest ih =>
      obtain ⟨hposition, htile⟩ := h
      obtain ⟨hwidth, hputs⟩ := ih htile
      constructor
      · rw [streamAll_cons, List.length_append, hslot.width, hwidth]
        rfl
      · intro base
        have hfirst := hslot.puts base
        rw [hposition] at hfirst
        have hnext := hputs base
        rw [← hslot.width, ← Nat.add_assoc] at hnext
        have hboth := hfirst.append hnext
        rw [streamAll_cons]
        refine hboth.congr ?_
        intro data
        rw [writeAll_cons]
        rfl

end Slot

namespace Layout

theorem Sound.written_slots {layout : Layout} (h : layout.Sound) {cells : List Cell}
    (hholds : layout.Holds cells)
    (hinner : ∀ slot ∈ layout.slots, ∀ inner, slot.item.record? = some inner →
      ∀ cells, inner.Holds cells → inner.Written cells) :
    List.Forall₂ (Slot.Written cells) layout.slots cells := by
  have hmem : List.Forall₂ (fun slot cell => slot ∈ layout.slots ∧ slot.Holds cell)
      layout.slots cells := by
    rw [List.forall₂_and_left]
    exact ⟨fun _ hslot => hslot, hholds⟩
  refine hmem.imp ?_
  rintro slot cell ⟨hslot, hcell⟩
  exact hcell.written (h.gateFits hslot) (hinner slot hslot) cells

/-- Cells that suit a built layout are written as their stream, at every bit. -/
theorem Built.written {layout : Layout} (h : layout.Built) :
    ∀ cells, layout.Holds cells → layout.Written cells := by
  refine h.induct ?_
  intro layout h ih cells hholds
  obtain ⟨hwidth, hputs⟩ := h.sound.tile.written (h.sound.written_slots hholds ih)
  have htotal := h.sound.total
  obtain ⟨name, slots, bits, warnings, dynamicSize⟩ := layout
  exact ⟨hwidth.trans htotal, hputs⟩

end Layout

namespace Container

variable {c : Container}

theorem Fits.size_pack (h : c.Fits) : c.pack.size = c.layout.bytes := by
  have hwritten := h.built.written c.cells h.holds
  rw [pack, (hwritten.puts 0).size_eq, Bits.zeros, Array.size_replicate]

theorem Fits.window_pack (h : c.Fits) : Bits.window c.pack 0 c.layout.bits = c.stream := by
  have hwritten := h.built.written c.cells h.holds
  have hle := c.layout.bits_le_bytes
  rw [← hwritten.width] at hle ⊢
  exact (hwritten.puts 0).window_zeros hle

/-- A packed container is its stream, filled up with zeros to whole bytes. -/
theorem Fits.ofBytes_pack (h : c.Fits) :
    Bits.ofBytes c.pack = c.stream ++ Bits.blank (8 * c.layout.bytes - c.layout.bits) := by
  have hwritten := h.built.written c.cells h.holds
  have hle := c.layout.bits_le_bytes
  rw [← hwritten.width] at hle ⊢
  exact (hwritten.puts 0).ofBytes_zeros hle

end Container

/-! ## What the stream is made of -/

mutual

/-- The bits that a container stands for are what its items contribute, in slot order. -/
inductive Container.Spells : Container → List Bool → Prop where
  | slots {c : Container} {pieces : List (List Bool)} :
      pieces.length = c.layout.slots.length →
      (∀ index piece, pieces[index]? = some piece → Container.Contributes c index piece) →
      Container.Spells c pieces.flatten

/-- What the item at an index contributes, in terms of what the container shows there. -/
inductive Container.Contributes : Container → Nat → List Bool → Prop where
  | reserved {c : Container} {index : Nat} {slot : Slot} {run : Reserved} :
      c.layout.slot? index = some slot → slot.item = .reserved run →
      Container.Contributes c index (List.replicate run.bits false)
  | enable {c : Container} {index : Nat} {slot : Slot} {enable : Enable} {present : Bool} :
      c.layout.slot? index = some slot → slot.item = .enable enable →
      c.get? index = some (.scalar (.bool present)) →
      Container.Contributes c index (List.replicate enable.bits present)
  | absent {c : Container} {index : Nat} {slot : Slot} {field : Field} :
      c.layout.slot? index = some slot → slot.item = .field field → c.get? index = none →
      Container.Contributes c index (List.replicate field.bits false)
  | leaf {c : Container} {index : Nat} {slot : Slot} {field : Field} {type : LeafType}
      {value : Scalar} {pattern : Nat} :
      c.layout.slot? index = some slot → slot.item = .field field → field.type = .leaf type →
      c.get? index = some (.scalar value) → type.encode value = .ok pattern →
      Container.Contributes c index (Bits.ofNat type.bits pattern)
  | record {c : Container} {index : Nat} {slot : Slot} {field : Field} {inner : Container}
      {bits : List Bool} :
      c.layout.slot? index = some slot → slot.item = .field field →
      field.type = .record inner.layout → c.get? index = some (.record inner) →
      Container.Spells inner bits → Container.Contributes c index bits

end

namespace Container

theorem contributes_of_not_isOpen {c : Container} {index : Nat} {slot : Slot} {cell : Cell}
    {field : Field} (hslot : c.layout.slots[index]? = some slot)
    (hcell : c.cells[index]? = some cell) (hfield : slot.item = .field field)
    (hopen : ¬ Cell.isOpen c.cells slot.link = true) :
    Contributes c index (slot.stream c.cells cell) := by
  have hstream : slot.stream c.cells cell = List.replicate field.bits false := by
    simp only [Slot.stream, hfield, if_neg hopen, Bits.blank]
  have hget := get?_field hslot hcell hfield
  rw [if_neg hopen] at hget
  rw [hstream]
  exact .absent hslot hfield hget

/-- The stream of a slot is what the item contributes, if the structure inside spells its own. -/
theorem contributes_of_holds {c : Container} {index : Nat} {slot : Slot} {cell : Cell}
    (hslot : c.layout.slots[index]? = some slot) (hcell : c.cells[index]? = some cell)
    (hholds : slot.Holds cell)
    (hinner : ∀ inner, slot.item.record? = some inner → ∀ cells, inner.Holds cells →
      Spells ⟨inner, cells⟩ (inner.stream cells)) :
    Contributes c index (slot.stream c.cells cell) := by
  cases hholds with
  | @enable _ enable present hitem =>
      have hstream : slot.stream c.cells (.enable present) =
          List.replicate enable.bits present := by
        simp only [Slot.stream, hitem, Cell.isSet]
      rw [hstream]
      exact .enable hslot hitem (get?_enable hslot hcell hitem)
  | @leaf _ field type value mode hitem htype hnormal =>
      have hget := get?_field hslot hcell hitem
      by_cases hopen : Cell.isOpen c.cells slot.link = true
      · have hstream : slot.stream c.cells (.leaf value mode) =
            Bits.ofNat type.bits (type.pattern value) := by
          simp only [Slot.stream, hitem, if_pos hopen, htype, FieldType.stream]
        rw [if_pos hopen, htype] at hget
        rw [hstream]
        exact .leaf hslot hitem htype hget (LeafType.encode_of_normal hnormal)
      · exact contributes_of_not_isOpen hslot hcell hitem hopen
  | @record _ field inner cells mode hitem htype hcells =>
      have hget := get?_field hslot hcell hitem
      by_cases hopen : Cell.isOpen c.cells slot.link = true
      · have hstream : slot.stream c.cells (.record cells mode) = inner.stream cells := by
          simp only [Slot.stream, hitem, if_pos hopen, htype, FieldType.stream]
        have hrecord : slot.item.record? = some inner := Item.record?_of_field hitem htype
        rw [if_pos hopen, htype] at hget
        rw [hstream]
        exact .record hslot hitem htype hget (hinner inner hrecord cells hcells)
      · exact contributes_of_not_isOpen hslot hcell hitem hopen
  | @reserved _ run hitem =>
      have hstream : slot.stream c.cells .reserved = List.replicate run.bits false := by
        simp only [Slot.stream, hitem, Bits.blank]
      rw [hstream]
      exact .reserved hslot hitem

end Container

/-- The stream of cells that suit a built layout is spelled by what they show. -/
theorem Layout.Built.spells {layout : Layout} (h : layout.Built) :
    ∀ cells, layout.Holds cells → Container.Spells ⟨layout, cells⟩ (layout.stream cells) := by
  refine h.induct ?_
  intro layout h ih cells hholds
  rw [stream_eq_flatten]
  apply Container.Spells.slots
  · rw [List.length_zipWith, ← hholds.length_eq, Nat.min_self]
  · intro index piece hpiece
    obtain ⟨slot, cell, hslot, hcell, rfl⟩ := List.getElem?_zipWith_eq_some.mp hpiece
    obtain ⟨found, hfound, hsuits⟩ := hholds.cell hslot
    cases hcell.symm.trans hfound
    exact Container.contributes_of_holds hslot hcell hsuits (ih slot (List.mem_of_getElem? hslot))

namespace Layout.Sample

/-- The derived layout with its structure present and the kind assigned. -/
def filled : Container :=
  ((Operation.within "pair" (.assign "kind" (.scalar (.unsigned 5)))).run (.new fullLayout)).1

end Layout.Sample

end RadioPacket
