import RadioPacket.Proofs.Container.Footprint
import RadioPacket.Proofs.Container.ReadBack

/-!
# Operations that do not interfere

An operation on one item of a reachable container leaves all other items alone, except for the one
slot that the item is linked to: they show what they showed, they keep their modes, and in the
packed bytes their bits do not change.  It follows that operations on two items that are not linked
may be swapped.
-/

namespace RadioPacket

/-- A bit of a structure belongs to the slot. -/
def Slot.Covers (slot : Slot) (offset : Nat) : Prop :=
  slot.position.offset ≤ offset ∧ offset < slot.position.offset + slot.bits

theorem Bits.bitAt_of_window {a b : Bytes} {position width offset : Nat}
    (h : window a position width = window b position width) (hstart : position ≤ offset)
    (hend : offset < position + width) : bitAt a offset = bitAt b offset := by
  have hget (data : Bytes) :
      (window data position width)[offset - position]? = some (bitAt data offset) := by
    have hlt : offset - position < width := by omega
    have hoffset : position + (offset - position) = offset := by omega
    rw [window, List.getElem?_map, List.getElem?_range hlt, Option.map_some, hoffset]
  exact Option.some.inj ((hget a).symm.trans ((congrArg (·[offset - position]?) h).trans (hget b)))

namespace Container

variable {c : Container}

theorem Fits.bitAt_padding (h : c.Fits) {offset : Nat} (hoffset : c.layout.bits ≤ offset) :
    Bits.bitAt c.pack offset = false := by
  have hwritten := h.built.written c.cells h.holds
  have hbehind : 0 + (c.layout.stream c.cells).length ≤ offset := by
    rw [hwritten.width]
    omega
  rw [pack, (hwritten.puts 0).outside _ offset (.inr hbehind), Bits.bitAt_zeros]

theorem Fits.window_slot (h : c.Fits) {index : Nat} {slot : Slot} {cell : Cell}
    (hslot : c.layout.slots[index]? = some slot) (hcell : c.cells[index]? = some cell) :
    Bits.window c.pack slot.position.offset slot.bits = slot.stream c.cells cell := by
  have hwindows := h.built.window_slots h.holds h.window_pack
  simpa only [Nat.zero_add] using forall₂_at hwindows hslot hcell

/-- Two containers of one layout pack the same bit when the slot of the bit has the same cell in
both, and its gate the same state. -/
theorem Fits.bitAt_congr (h : c.Fits) {d : Container} (hd : d.Fits) (hlayout : d.layout = c.layout)
    {offset : Nat}
    (hsame : ∀ (index : Nat) (slot : Slot), c.layout.slots[index]? = some slot →
      slot.Covers offset → d.cells[index]? = c.cells[index]? ∧
        Cell.isOpen d.cells slot.link = Cell.isOpen c.cells slot.link) :
    Bits.bitAt d.pack offset = Bits.bitAt c.pack offset := by
  by_cases hinside : offset < c.layout.bits
  · have htotal : Item.totalBits (c.layout.slots.map Slot.item) = c.layout.bits :=
      h.built.sound.total
    obtain ⟨slot, hmem, hstart, hend⟩ :=
      h.built.sound.tile.exists_covering (Nat.zero_le offset) (by omega)
    obtain ⟨index, hslot⟩ := List.getElem?_of_mem hmem
    obtain ⟨hcell, hopen⟩ := hsame index slot hslot ⟨hstart, hend⟩
    obtain ⟨cell, hfound, _⟩ := h.holds.cell hslot
    have hstream : slot.stream d.cells cell = slot.stream c.cells cell := by
      simp only [Slot.stream, hopen]
    have hbefore := h.window_slot hslot hfound
    have hafter := hd.window_slot (hlayout ▸ hslot) (hcell.trans hfound)
    exact Bits.bitAt_of_window (hafter.trans (hstream.trans hbefore.symm)) hstart hend
  · have hout := Nat.le_of_not_lt hinside
    rw [h.bitAt_padding hout, hd.bitAt_padding (hlayout ▸ hout)]

/-- What a change to the item of a slot leaves alone: whatever any other item shows, except for the
one that the slot is linked to, the modes and nested structures of all other fields, and all bits of
other slots. -/
structure Spares (c after : Container) (index : Nat) (slot : Slot) : Prop where
  layout : after.layout = c.layout
  shown : ∀ other, other ≠ index → slot.link ≠ some other → after.get? other = c.get? other
  fields : ∀ other found field, c.layout.slots[other]? = some found → found.item = .field field →
    other ≠ index → after.modeAt other = c.modeAt other ∧ after.nestedAt other = c.nestedAt other
  size : after.pack.size = c.pack.size
  bits : ∀ offset, ¬ slot.Covers offset →
    (∀ link linked, slot.link = some link → c.layout.slots[link]? = some linked →
      ¬ linked.Covers offset) →
    Bits.bitAt after.pack offset = Bits.bitAt c.pack offset

theorem get?_congr {d : Container} (hlayout : d.layout = c.layout) {index : Nat}
    (hcell : d.cells[index]? = c.cells[index]?)
    (hopen : ∀ slot, c.layout.slots[index]? = some slot →
      Cell.isOpen d.cells slot.link = Cell.isOpen c.cells slot.link) :
    d.get? index = c.get? index := by
  rw [get?, get?, Layout.slot?, Layout.slot?, hlayout, hcell]
  rcases hslot : c.layout.slots[index]? with _ | slot
  · rfl
  · have habsent : d.isAbsent slot = c.isAbsent slot := by
      rw [isAbsent, isAbsent, hopen slot hslot]
    simp only [Option.bind_eq_bind, Option.bind_some, habsent]

end Container

namespace Effect

variable {effect : Effect} {c : Container} {index : Nat} {slot : Slot}

theorem isOpen_apply_of_ne (h : c.layout.Matched) (hslot : c.layout.slots[index]? = some slot)
    {other : Nat} {found : Slot} (hfound : c.layout.slots[other]? = some found)
    (hne : other ≠ index) (hlink : slot.link ≠ some other) :
    Cell.isOpen (effect.apply c index slot.link).cells found.link =
      Cell.isOpen c.cells found.link := by
  rcases hgate : found.link with _ | gate
  · rfl
  · have hitem : index ≠ gate := by
      rintro rfl
      exact hlink (h.link_back hfound hslot hgate)
    have hgates : slot.link ≠ some gate := fun hshared =>
      hne (h.index_eq_of_link hfound hslot hgate hshared)
    rw [Cell.isOpen, Cell.isOpen, Cell.isSetAt, Cell.isSetAt,
      getElem?_apply_of_ne hitem hgates]

/-- Only fields decide presence, and what they decide about is an enable.  So the cells of all other
fields stay as they are. -/
theorem getElem?_apply_of_field (h : c.layout.Matched)
    (hslot : c.layout.slots[index]? = some slot)
    (hpresence : effect.presence ≠ none → ∃ field, slot.item = .field field) {other : Nat}
    {found : Slot} {field : Field} (hfound : c.layout.slots[other]? = some found)
    (hfield : found.item = .field field) (hne : other ≠ index) :
    (effect.apply c index slot.link).cells[other]? = c.cells[other]? := by
  by_cases hlink : slot.link = some other
  · obtain ⟨gate, enable, _, hgate, hsides, _⟩ := h.couples index other slot hslot hlink
    obtain rfl := Option.some.inj (hfound.symm.trans hgate)
    have hidle : effect.presence = none := by
      by_contra hdecides
      obtain ⟨own, hown⟩ := hpresence hdecides
      simp only [hown, hfield, reduceCtorEq, and_false, false_and, or_self] at hsides
    rw [apply, hidle, Container.put, List.getElem?_set_ne hne.symm]
  · exact getElem?_apply_of_ne hne.symm hlink

/-- An effect on one item spares all the others. -/
theorem spares (h : c.Fits) (hafter : (effect.apply c index slot.link).Fits)
    (hslot : c.layout.slots[index]? = some slot)
    (hpresence : effect.presence ≠ none → ∃ field, slot.item = .field field) :
    c.Spares (effect.apply c index slot.link) index slot where
  layout := layout_apply
  shown other hne hlink := by
    apply Container.get?_congr layout_apply (getElem?_apply_of_ne hne.symm hlink)
    intro found hfound
    exact isOpen_apply_of_ne h.built.linked.matched hslot hfound hne hlink
  fields other found field hfound hfield hne := by
    have hcell : (effect.apply c index slot.link).cells[other]? = c.cells[other]? :=
      getElem?_apply_of_field h.built.linked.matched hslot hpresence hfound hfield hne
    constructor
    · rw [Container.modeAt, Container.modeAt, hcell]
    · rw [Container.nestedAt, Container.nestedAt, hcell, layout_apply]
  size := by rw [h.size_pack, hafter.size_pack, layout_apply]
  bits offset hown hlinked := by
    apply h.bitAt_congr hafter layout_apply
    intro other found hfound hcovers
    have hne : other ≠ index := by
      rintro rfl
      exact hown (Option.some.inj (hfound.symm.trans hslot) ▸ hcovers)
    have hlink : slot.link ≠ some other := fun hlink => hlinked other found hlink hfound hcovers
    exact ⟨getElem?_apply_of_ne hne.symm hlink,
      isOpen_apply_of_ne h.built.linked.matched hslot hfound hne hlink⟩

end Effect

namespace Container

variable {c : Container}

theorem Fits.spares_run (h : c.Fits) {operation : Operation}
    (hoperand : ∀ operand, operation.operand? = some operand → operand.Fits) {index : Nat}
    {slot : Slot} (hslot : c.layout.slots[index]? = some slot)
    (htarget : operation.target? c.layout = some index) :
    c.Spares (operation.run c).1 index slot := by
  obtain ⟨cell, hcell, _⟩ := h.holds.cell hslot
  have hself := h.built.linked.matched.link_ne_self hslot
  have hrun := operation.run_eq htarget hslot hself hcell
  have hafter := (operation.keeps_run h hoperand).2
  rw [hrun] at hafter ⊢
  exact Effect.spares h hafter hslot Operation.field_of_presence

/-- Operations on two items that are not linked answer the same and lead to the same container in
either order. -/
theorem Fits.run_comm (h : c.Fits) {first second : Operation} {i j : Nat} {a b : Slot}
    (ha : c.layout.slots[i]? = some a) (hb : c.layout.slots[j]? = some b)
    (hfirst : first.target? c.layout = some i) (hsecond : second.target? c.layout = some j)
    (hne : j ≠ i) (hlink : a.link ≠ some j) :
    second.run (first.run c).1 = ((first.run (second.run c).1).1, (second.run c).2) ∧
      (first.run (second.run c).1).2 = (first.run c).2 := by
  have hmatched := h.built.linked.matched
  have hback : b.link ≠ some i := fun hback => hlink (hmatched.link_back hb ha hback)
  have haself := hmatched.link_ne_self ha
  have hbself := hmatched.link_ne_self hb
  obtain ⟨cell, hcell, _⟩ := h.holds.cell ha
  obtain ⟨other, hother, _⟩ := h.holds.cell hb
  let one := first.effect a cell
  let two := second.effect b other
  -- Each of the two finds its item as it was, because the other one does not touch it.
  have hlate : second.run (one.apply c i a.link) =
      (two.apply (one.apply c i a.link) j b.link, two.answer) := by
    apply second.run_eq
    · rw [Effect.layout_apply]
      exact hsecond
    · rw [Effect.layout_apply]
      exact hb
    · exact hbself
    · rw [Effect.getElem?_apply_of_ne hne.symm hlink]
      exact hother
  have hearly : first.run (two.apply c j b.link) =
      (one.apply (two.apply c j b.link) i a.link, one.answer) := by
    apply first.run_eq
    · rw [Effect.layout_apply]
      exact hfirst
    · rw [Effect.layout_apply]
      exact ha
    · exact haself
    · rw [Effect.getElem?_apply_of_ne hne hback]
      exact hcell
  have hlinks : ∀ k, a.link = some k → b.link ≠ some k := fun k hk hshared =>
    hne (hmatched.index_eq_of_link hb ha hshared hk)
  rw [first.run_eq hfirst ha haself hcell, second.run_eq hsecond hb hbself hother]
  simp only [one, two] at hlate hearly
  rw [hlate, hearly, Effect.apply_comm hne.symm hlink hback hlinks]
  exact ⟨rfl, rfl⟩

/-- Operations on unrelated items do not interfere.  An operation on one item of a reachable
container spares all others, and it may be swapped with any operation on an item that is neither the
same nor linked to it. -/
theorem Reachable.run_independent (h : c.Reachable) {operation : Operation}
    (hoperand : ∀ operand, operation.operand? = some operand → operand.Reachable) {index : Nat}
    {slot : Slot} (hslot : c.layout.slots[index]? = some slot)
    (htarget : operation.target? c.layout = some index) :
    c.Spares (operation.run c).1 index slot ∧
      ∀ (other : Operation) (j : Nat) (found : Slot), c.layout.slots[j]? = some found →
        other.target? c.layout = some j → j ≠ index → slot.link ≠ some j →
        other.run (operation.run c).1 = ((operation.run (other.run c).1).1, (other.run c).2) ∧
          (operation.run (other.run c).1).2 = (operation.run c).2 := by
  refine ⟨h.fits.spares_run (fun operand hmem => (hoperand operand hmem).fits) hslot htarget, ?_⟩
  intro other j found hfound hother hne hlink
  exact h.fits.run_comm hslot hfound htarget hother hne hlink

end Container

namespace Layout.Sample

/-- In a new report the kind is assigned and the level is disabled: only the kind and its gate
change by the first, and the two may be done in either order. -/
theorem assign_kind_spares_level :
    let c := Container.new reportLayout
    let assign := Operation.assign "kind" (.scalar (.unsigned 5))
    let disable := Operation.changeMode "level" .disabled
    (assign.run c).2 = .ok () ∧ (disable.run c).2 = .ok () ∧
      c.Spares (assign.run c).1 3
        ⟨.field { name := "kind", type := .leaf kind, mode := .optional,
                  enabledBy := some "kindGate" }, ⟨5⟩, some 0⟩ ∧
      disable.run (assign.run c).1 = ((assign.run (disable.run c).1).1, (disable.run c).2) ∧
      (assign.run (disable.run c).1).2 = (assign.run c).2 := by
  have hoperand : ∀ operand, (Operation.assign "kind" (.scalar (.unsigned 5))).operand? =
      some operand → operand.Reachable := by
    intro operand hoperand
    cases hoperand
  have hkind : reportLayout.index? "kind" = some 3 := by decide
  obtain ⟨hspares, hswap⟩ :=
    Container.Reachable.run_independent (.new built_reportLayout) hoperand rfl hkind
  obtain ⟨hboth, hanswer⟩ := hswap (.changeMode "level" .disabled) 4 _ rfl (by decide) (by decide)
    (by decide)
  exact ⟨by decide, by decide, hspares, hboth, hanswer⟩

end Layout.Sample

end RadioPacket
