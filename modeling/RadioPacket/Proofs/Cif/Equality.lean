import RadioPacket.Proofs.Cif.RoundTrip
import RadioPacket.Proofs.Container.Equality

/-!
# Equality of the containers of a group

Containers of a group are equal when their words are and when the fields that the words announce
show the same.  Equal words announce the same fields, so what is known of the cells of one field
carries over, and equality of groups is observational as that of structures is.
-/

namespace RadioPacket

theorem Container.Fits.isSetAt_of_same {a b : Container} (ha : a.Fits) (hb : b.Fits)
    (h : a.same b = true) {index : Nat} {slot : Slot} {enable : Enable}
    (hslot : a.layout.slots[index]? = some slot) (hitem : slot.item = .enable enable) :
    Cell.isSetAt a.cells index = Cell.isSetAt b.cells index := by
  obtain ⟨hlayout, hcells⟩ := same_iff.mp h
  have hholds : a.layout.Holds b.cells := hlayout ▸ hb.holds
  obtain ⟨x, hx, _⟩ := ha.holds.cell hslot
  obtain ⟨y, hy, _⟩ := hholds.cell hslot
  have hstate := (Layout.sameCells_iff ha.holds hholds).mp hcells index slot x y hslot hx hy
  simp only [Cell.isSetAt, hx, hy]
  exact (Slot.sameCell_enable hitem).mp hstate

/-- Containers of one group that differ in modes, behind false enables and in fields that are not
announced only, at any depth. -/
structure CifContainer.DiffersHidden (a b : CifContainer) : Prop where
  group : a.group = b.group
  word : a.enables.DiffersHidden b.enables
  fields : ∀ (index : Nat) (content : CifContent) (x y : Cell),
    a.group.content[index]? = some content → a.cells[index]? = some x → b.cells[index]? = some y →
      a.announces content = true → content.slot.DiffersHidden [] x y

/-- A fixed-point field stands in the payload, at any depth. -/
def CifGroup.UsesFixedPoint (group : CifGroup) : Prop :=
  ∃ content ∈ group.content, content.type.UsesFixedPoint

namespace CifContainer

variable {a b c : CifContainer} {index : Nat} {content : CifContent} {x y : Cell}

theorem Fits.comparable_field (h : c.Fits) (hcontent : c.group.content[index]? = some content) :
    Comparable content.type.Holds (fun x y => content.type.sameCell x y = true)
      content.type.stream :=
  FieldType.comparable fun layout htype =>
    (h.inner (List.mem_of_getElem? hcontent) layout htype).comparable

theorem Fits.holds_at (h : c.Fits) (hcontent : c.group.content[index]? = some content)
    (hcell : c.cells[index]? = some x) : content.type.Holds x :=
  Slot.Holds.field (forall₂_at h.holds hcontent hcell) rfl

theorem Fits.cell (h : c.Fits) (hcontent : c.group.content[index]? = some content) :
    ∃ cell, c.cells[index]? = some cell ∧ content.type.Holds cell := by
  obtain ⟨cell, hcell, _⟩ := exists_at h.holds hcontent
  exact ⟨cell, hcell, h.holds_at hcontent hcell⟩

/-- Containers of a group are equal when their words are, and the cells of every announced field. -/
theorem Fits.same_iff (ha : a.Fits) (hb : b.Fits) :
    a.same b = true ↔ a.group = b.group ∧ a.enables.same b.enables = true ∧
      ∀ (index : Nat) (content : CifContent) (x y : Cell),
        a.group.content[index]? = some content → a.cells[index]? = some x →
          b.cells[index]? = some y → a.announces content = true →
            content.type.sameCell x y = true := by
  have hentries : a.group = b.group → ∀ {index content x y},
      a.group.content[index]? = some content → a.cells[index]? = some x →
        b.cells[index]? = some y →
          a.entry? index = some (content, x) ∧ b.entry? index = some (content, y) :=
    fun hgroup _ _ _ _ hcontent hx hy =>
      ⟨entry?_eq hcontent hx, entry?_eq (hgroup ▸ hcontent) hy⟩
  simp only [same, Bool.and_eq_true, decide_eq_true_eq, List.all_eq_true, List.mem_range,
    and_assoc]
  refine and_congr_right fun hgroup => and_congr_right fun _ => ?_
  constructor
  · intro h index content x y hcontent hx hy hannounced
    have hcell := h index (List.getElem?_eq_some_iff.mp hcontent).1
    obtain ⟨hfirst, hsecond⟩ := hentries hgroup hcontent hx hy
    rw [hfirst, hsecond] at hcell
    simp only [hannounced, Bool.not_true, Bool.false_or] at hcell
    exact hcell
  · intro h index hindex
    obtain ⟨content, hcontent⟩ : ∃ content, a.group.content[index]? = some content :=
      ⟨_, List.getElem?_eq_getElem hindex⟩
    have hcontentB : b.group.content[index]? = some content := hgroup ▸ hcontent
    obtain ⟨x, hx, _⟩ := ha.cell hcontent
    obtain ⟨y, hy, _⟩ := hb.cell hcontentB
    obtain ⟨hfirst, hsecond⟩ := hentries hgroup hcontent hx hy
    rw [hfirst, hsecond]
    change (!a.announces content || content.type.sameCell x y) = true
    cases hannounced : a.announces content with
    | false => rfl
    | true => exact h index content x y hcontent hx hy hannounced

theorem Fits.announces_of_same (ha : a.Fits) (hb : b.Fits)
    (hword : a.enables.same b.enables = true) (hcontent : content ∈ a.group.content) :
    a.announces content = b.announces content := by
  obtain ⟨hslot, _, _⟩ := ha.built.enable_slot hcontent
  rw [← ha.layout] at hslot
  exact ha.word.isSetAt_of_same hb.word hword hslot rfl

theorem Fits.payloadStream_of_same (ha : a.Fits) (hb : b.Fits) (h : a.same b = true) :
    payloadStream a.enables.cells a.group.content a.cells =
      payloadStream b.enables.cells b.group.content b.cells := by
  obtain ⟨hgroup, hword, hcells⟩ := (ha.same_iff hb).mp h
  rw [payloadStream_eq_flatten, payloadStream_eq_flatten, ← hgroup]
  congr 1
  apply List.ext_getElem?
  intro index
  rw [List.getElem?_zipWith, List.getElem?_zipWith]
  cases hcontent : a.group.content[index]? with
  | none => rfl
  | some content =>
    obtain ⟨x, hx, hholdsX⟩ := ha.cell hcontent
    obtain ⟨y, hy, hholdsY⟩ := hb.cell (hgroup ▸ hcontent)
    have hstate : Cell.isSetAt a.enables.cells content.enable =
        Cell.isSetAt b.enables.cells content.enable :=
      ha.announces_of_same hb hword (List.mem_of_getElem? hcontent)
    rw [hx, hy]
    simp only [← hstate]
    cases hset : Cell.isSetAt a.enables.cells content.enable with
    | false => rfl
    | true =>
      exact congrArg some ((ha.comparable_field hcontent).observe_eq x y hholdsX hholdsY
        (hcells index content x y hcontent hx hy hset))

theorem Fits.stream_of_same (ha : a.Fits) (hb : b.Fits) (h : a.same b = true) :
    a.stream = b.stream := by
  obtain ⟨_, hword, _⟩ := (ha.same_iff hb).mp h
  obtain ⟨hlayout, hcells⟩ := Container.same_iff.mp hword
  have hstream : a.enables.stream = b.enables.stream := by
    rw [Container.stream, Container.stream, ← hlayout]
    exact ha.word.built.comparable.observe_eq _ _ ha.word.holds (hlayout ▸ hb.word.holds) hcells
  rw [stream, stream, hstream, ha.payloadStream_of_same hb h]

theorem comparable : Comparable Fits (fun a b => a.same b = true) pack := by
  constructor
  · intro a ha
    refine (ha.same_iff ha).mpr ⟨rfl, Container.comparable.refl _ ha.word, ?_⟩
    intro index content x y hcontent hx hy _
    cases hx.symm.trans hy
    exact (ha.comparable_field hcontent).refl x (ha.holds_at hcontent hx)
  · intro a b ha hb hsame
    obtain ⟨hgroup, hword, hcells⟩ := (ha.same_iff hb).mp hsame
    refine (hb.same_iff ha).mpr
      ⟨hgroup.symm, Container.comparable.symm _ _ ha.word hb.word hword, ?_⟩
    intro index content y x hcontentB hy hx hannounced
    have hcontent : a.group.content[index]? = some content := hgroup ▸ hcontentB
    have hstate := ha.announces_of_same hb hword (List.mem_of_getElem? hcontent)
    exact (ha.comparable_field hcontent).symm x y (ha.holds_at hcontent hx)
      (hb.holds_at hcontentB hy)
      (hcells index content x y hcontent hx hy (hstate.trans hannounced))
  · intro a b c ha hb hc hsame hsame'
    obtain ⟨hgroup, hword, hcells⟩ := (ha.same_iff hb).mp hsame
    obtain ⟨hgroup', hword', hcells'⟩ := (hb.same_iff hc).mp hsame'
    refine (ha.same_iff hc).mpr ⟨hgroup.trans hgroup',
      Container.comparable.trans _ _ _ ha.word hb.word hc.word hword hword', ?_⟩
    intro index content x z hcontent hx hz hannounced
    have hcontentB : b.group.content[index]? = some content := hgroup ▸ hcontent
    have hcontentC : c.group.content[index]? = some content := hgroup' ▸ hcontentB
    have hstate := ha.announces_of_same hb hword (List.mem_of_getElem? hcontent)
    obtain ⟨y, hy, hholdsY⟩ := hb.cell hcontentB
    exact (ha.comparable_field hcontent).trans x y z (ha.holds_at hcontent hx) hholdsY
      (hc.holds_at hcontentC hz)
      (hcells index content x y hcontent hx hy hannounced)
      (hcells' index content y z hcontentB hy hz (hstate ▸ hannounced))
  · intro a b ha hb hsame
    have hstream := ha.stream_of_same hb hsame
    have hbits : a.packedBits = b.packedBits := by
      rw [← ha.length_stream, hstream, hb.length_stream]
    apply Bits.ofBytes_injective
    rw [ha.ofBytes_pack, hb.ofBytes_pack, ha.size_pack, hb.size_pack, hstream, hbits]

end CifContainer

/-! ## Both kinds of container -/

end RadioPacket
