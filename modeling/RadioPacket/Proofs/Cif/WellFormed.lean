import RadioPacket.Proofs.Cif.RoundTrip
import RadioPacket.Proofs.Container.WellFormed

/-!
# Well-formed containers of a group

The indicator word of a group is a container like any other, and the payload fields store what
fields of a structure store.  With that, well-formedness is one property of everything that a
program can come by, words, payloads and nested structures alike.
-/

namespace RadioPacket

namespace CifContainer

/-- The container stores for a payload field what the field may hold, and a mode. -/
inductive HoldsContent (content : CifContent) : Cell → Prop where
  | leaf {type : LeafType} {value : Scalar} {mode : Mode} :
      content.type = .leaf type → type.Storable value → HoldsContent content (.leaf value mode)
  | record {inner : Container} {mode : Mode} :
      content.type = .record inner.layout → inner.WellFormed →
      HoldsContent content (.record inner.cells mode)

/-- The indicator word is a well-formed container of the layout of the group, and there is one cell
for each payload field, with what the field may hold. -/
structure WellFormed (c : CifContainer) : Prop where
  word : c.enables.WellFormed
  layout : c.enables.layout = c.group.enables
  payload : List.Forall₂ HoldsContent c.group.content c.cells

theorem holdsContent_of_holds {content : CifContent} (hinner : content.Built) {cell : Cell}
    (h : content.slot.Holds cell) : HoldsContent content cell := by
  have hitem : content.slot.item = .field content.field := rfl
  cases h with
  | enable henable => exact nomatch hitem.symm.trans henable
  | leaf hfield htype hnormal =>
      obtain rfl := Item.field.inj (hitem.symm.trans hfield)
      exact .leaf htype hnormal.storable
  | @record _ field inner cells mode hfield htype hcells =>
      obtain rfl := Item.field.inj (hitem.symm.trans hfield)
      have hnested : Container.WellFormed ⟨inner, cells⟩ :=
        (hinner inner htype).wellFormed cells hcells
      have htyped : content.type = .record (Container.mk inner cells).layout := htype
      exact .record htyped hnested
  | reserved hreserved => exact nomatch hitem.symm.trans hreserved

theorem Reachable.wellFormed {c : CifContainer} (h : c.Reachable) : c.WellFormed where
  word := h.fits.word.built.wellFormed c.enables.cells h.fits.word.holds
  layout := h.fits.layout
  payload := by
    have hmem : List.Forall₂ (fun content cell => content ∈ c.group.content ∧
        content.slot.Holds cell) c.group.content c.cells := by
      rw [List.forall₂_and_left]
      exact ⟨fun _ hcontent => hcontent, h.fits.holds⟩
    refine hmem.imp ?_
    rintro content cell ⟨hcontent, hholds⟩
    exact holdsContent_of_holds (h.fits.inner hcontent) hholds

end CifContainer

end RadioPacket
