import RadioPacket.Proofs.Cif.WireFormat
import RadioPacket.Proofs.Container.RoundTrip

/-!
# The round trip of a group

The word of a packed group is read first and announces the fields that were announced before, so the
reader moves its cursor as the writer did and finds each field where it was put.  What the word
shows comes back as it was, and so does what the fields show, but for fixed-point numbers.
-/

namespace RadioPacket

/-- What the payload field at an index shows comes back in the second container. -/
inductive CifContainer.FieldReadsBack (c back : CifContainer) (index : Nat) : Prop where
  | absent : c.get? index = none → back.get? index = none → FieldReadsBack c back index
  | identical {content : CifContent} {type : LeafType} {value : Scalar} :
      c.group.content[index]? = some content → content.type = .leaf type →
      ¬ type.IsFixedPoint →
      c.get? index = some (.scalar value) → back.get? index = some (.scalar value) →
      FieldReadsBack c back index
  | fixedPoint {content : CifContent} {type : LeafType} {value read : Scalar} {pattern : Nat} :
      c.group.content[index]? = some content → content.type = .leaf type → type.IsFixedPoint →
      type.encode value = .ok pattern → type.decode pattern = .ok read →
      c.get? index = some (.scalar value) → back.get? index = some (.scalar read) →
      FieldReadsBack c back index
  | record {content : CifContent} {inner innerBack : Container} :
      c.group.content[index]? = some content → content.type = .record inner.layout →
      c.get? index = some (.record inner) → back.get? index = some (.record innerBack) →
      inner.ReadsBack innerBack → FieldReadsBack c back index

/-- The second container is of the same group, its word shows the same, and what the payload fields
show comes back in it. -/
structure CifContainer.ReadsBack (c back : CifContainer) : Prop where
  group : back.group = c.group
  indicators : ∀ index, back.enables.get? index = c.enables.get? index
  fields : ∀ index < c.group.content.length, c.FieldReadsBack back index

/-- A present leaf field of the type shows the value, in the payload or in a structure of it. -/
inductive CifContainer.Shows (c : CifContainer) (type : LeafType) (value : Scalar) : Prop where
  | leaf {index : Nat} {content : CifContent} :
      c.group.content[index]? = some content → content.type = .leaf type →
      c.get? index = some (.scalar value) → Shows c type value
  | nested {index : Nat} {inner : Container} :
      c.get? index = some (.record inner) → inner.Shows type value → Shows c type value

/-! ## The indicator word -/

namespace Container.Fits

variable {c back : Container}

theorem get?_ne_record (h : c.Fits) (hflag : c.layout.FlagsOnly) (index : Nat)
    (inner : Container) : c.get? index ≠ some (.record inner) := by
  intro hget
  cases hslot : c.layout.slots[index]? with
  | none => simp [Container.get?, Layout.slot?, hslot] at hget
  | some slot =>
      obtain ⟨cell, hcell, hholds⟩ := h.holds.cell hslot
      rw [get?_eq hslot hcell] at hget
      split at hget
      · cases hget
      · obtain ⟨field, hitem, htype, _⟩ := hholds.of_valueOf_record (Option.some.inj hget)
        cases (hflag slot (List.mem_of_getElem? hslot) field hitem).symm.trans htype

theorem not_shows_fixedPoint (h : c.Fits) (hflag : c.layout.FlagsOnly) {type : LeafType}
    {value : Scalar} (hshows : c.Shows type value) : ¬ type.IsFixedPoint := by
  cases hshows with
  | @leaf _ index slot field _ _ hslot hitem htype _ =>
      have hsame := (hflag slot (List.mem_of_getElem? hslot) field hitem).symm.trans htype
      cases hsame
      rintro ⟨_, _, _, hshape⟩
      cases hshape
  | nested hget _ => exact absurd hget (h.get?_ne_record hflag _ _)

theorem get?_readsBack (h : c.Fits) (hback : back.Fits) (hflag : c.layout.FlagsOnly)
    (hreads : c.ReadsBack back) (index : Nat) : back.get? index = c.get? index := by
  cases hreads with
  | items hlayout hitems =>
      cases hslot : c.layout.slots[index]? with
      | none => simp [Container.get?, Layout.slot?, hlayout, hslot]
      | some slot =>
          cases hitems index (List.getElem?_eq_some_iff.mp hslot).1 with
          | @reserved _ _ _ _ run hfound hitem =>
              cases hslot.symm.trans hfound
              obtain ⟨cell, hcell, _⟩ := h.holds.cell hslot
              have hslotBack : back.layout.slots[index]? = some slot := by rw [hlayout, hslot]
              obtain ⟨cellBack, hcellBack, _⟩ := hback.holds.cell hslotBack
              rw [get?_eq hslot hcell, get?_eq hslotBack hcellBack]
              simp [isAbsent, Slot.valueOf, hitem, Item.field?]
          | enable _ _ hget => exact hget
          | absent _ _ hget hgetBack => rw [hget, hgetBack]
          | identical _ _ _ _ hget hgetBack => rw [hget, hgetBack]
          | fixedPoint hfound hitem htype hfixed _ _ hget _ =>
              exact absurd hfixed (h.not_shows_fixedPoint hflag (.leaf hfound hitem htype hget))
          | record _ _ _ hget _ _ => exact absurd hget (h.get?_ne_record hflag _ _)

variable {index : Nat} {slot : Slot} {enable : Enable}

theorem get?_eq_isSetAt (h : c.Fits) (hslot : c.layout.slots[index]? = some slot)
    (hitem : slot.item = .enable enable) :
    c.get? index = some (.scalar (.bool (Cell.isSetAt c.cells index))) := by
  obtain ⟨cell, hcell, _⟩ := h.holds.cell hslot
  rw [get?_enable hslot hcell hitem, Cell.isSetAt, hcell]

theorem isSetAt_congr (h : c.Fits) (hback : back.Fits) (hlayout : back.layout = c.layout)
    (hslot : c.layout.slots[index]? = some slot) (hitem : slot.item = .enable enable)
    (hget : back.get? index = c.get? index) :
    Cell.isSetAt back.cells index = Cell.isSetAt c.cells index := by
  have hslotBack : back.layout.slots[index]? = some slot := by rw [hlayout, hslot]
  rw [hback.get?_eq_isSetAt hslotBack hitem, h.get?_eq_isSetAt hslot hitem] at hget
  simpa using hget

end Container.Fits

namespace CifContainer

variable {c back : CifContainer}

theorem Fits.enable_eq_isSome (h : c.Fits) {index : Nat} {content : CifContent}
    (hcontent : c.group.content[index]? = some content) :
    Cell.isSetAt c.enables.cells content.enable = (c.get? index).isSome ∧
      c.enables.get? content.enable = some (.scalar (.bool (c.get? index).isSome)) := by
  obtain ⟨cell, hcell, _⟩ := exists_at h.holds hcontent
  obtain ⟨hslot, _, _⟩ := h.built.enable_slot (List.mem_of_getElem? hcontent)
  rw [← h.layout] at hslot
  have hstate : Cell.isSetAt c.enables.cells content.enable = (c.get? index).isSome := by
    rw [get?_eq hcontent hcell]
    cases Cell.isSetAt c.enables.cells content.enable with
    | false => rfl
    | true => rfl
  rw [h.word.get?_eq_isSetAt hslot rfl, hstate]
  exact ⟨rfl, rfl⟩

/-! ## The payload -/

theorem Fits.flagsOnly (h : c.Fits) : c.enables.layout.FlagsOnly := by
  rw [h.layout]
  exact h.built.flagsOnly

/-- The word of a packed container reads back, shows the same and announces the same fields. -/
theorem Fits.unpack_word_pack (h : c.Fits) :
    ∃ word, Container.unpack c.group.enables c.pack = .ok ⟨c.group.enables, word⟩ ∧
      c.enables.ReadsBack ⟨c.group.enables, word⟩ ∧
      (∀ index, (⟨c.group.enables, word⟩ : Container).get? index = c.enables.get? index) ∧
      ∀ content ∈ c.group.content,
        Cell.isSetAt word content.enable = Cell.isSetAt c.enables.cells content.enable := by
  have hbits := h.built.word_bits
  have hlayout := h.layout
  have hsize : 4 ≤ c.pack.size := by
    rw [h.size_pack, packedBits, hbits, Bits.bytesFor]
    omega
  obtain ⟨hword, _⟩ := h.window_parts
  rw [← hbits, ← hlayout] at hword
  obtain ⟨word, hread, hreads⟩ := h.word.built.readsBack c.pack c.enables.cells 0 h.word.holds
    (by rw [hlayout]; omega) hword
  have hreadsword : c.enables.ReadsBack ⟨c.enables.layout, word⟩ := hreads
  rw [hlayout] at hread hreadsword
  have hunpack : Container.unpack c.group.enables c.pack = .ok ⟨c.group.enables, word⟩ := by
    rw [Container.unpack, h.built.word_bytes, if_neg (by omega), hread]
    rfl
  have hfits := (Container.Reachable.unpack h.built.word hunpack).fits
  have hindicators := h.word.get?_readsBack hfits h.flagsOnly hreadsword
  refine ⟨word, hunpack, hreadsword, hindicators, ?_⟩
  intro content hcontent
  obtain ⟨hslot, _, _⟩ := h.built.enable_slot hcontent
  rw [← hlayout] at hslot
  exact h.word.isSetAt_congr hfits hlayout.symm hslot rfl (hindicators _)

theorem Fits.bitAt_pack (h : c.Fits) {index : Nat} {content : CifContent}
    (hcontent : c.group.content[index]? = some content) :
    Bits.bitAt c.pack (31 - content.bit) = (c.get? index).isSome := by
  have hmem := List.mem_of_getElem? hcontent
  obtain ⟨word, hunpack, _, _, hsame⟩ := h.unpack_word_pack
  obtain ⟨hstate, _⟩ := h.enable_eq_isSome hcontent
  rw [← h.built.isSetAt_word hunpack hmem, ← hstate]
  exact hsame content hmem

theorem announces_of_get? {index : Nat} {content : CifContent} {cell : Cell} {value : Value}
    (hcontent : c.group.content[index]? = some content) (hcell : c.cells[index]? = some cell)
    (h : c.get? index = some value) :
    c.announces content = true ∧ content.type.valueOf cell = value := by
  rw [get?_eq hcontent hcell] at h
  cases hset : Cell.isSetAt c.enables.cells content.enable with
  | false => simp [hset] at h
  | true => simpa [announces, hset] using h

theorem FieldReadsBack.sameCell {index : Nat} (h : c.FieldReadsBack back index) (hfits : c.Fits)
    (hfitsBack : back.Fits) (hgroup : back.group = c.group)
    (hsurvives : ∀ type value, c.Shows type value → type.IsFixedPoint → type.Survives value)
    {content : CifContent} {cell cellBack : Cell}
    (hcontent : c.group.content[index]? = some content)
    (hcell : c.cells[index]? = some cell) (hback : back.cells[index]? = some cellBack) :
    (!back.announces content || content.type.sameCell cellBack cell) = true := by
  have hcontentBack : back.group.content[index]? = some content := by rw [hgroup, hcontent]
  have hholds := forall₂_at hfits.holds hcontent hcell
  have hholdsBack := forall₂_at hfitsBack.holds hcontentBack hback
  cases h with
  | absent _ hgetBack =>
      rw [get?_eq hcontentBack hback] at hgetBack
      cases hset : Cell.isSetAt back.enables.cells content.enable with
      | false => simp [announces, hset]
      | true => simp [hset] at hgetBack
  | @identical _ type value hfound htype hfixed hget hgetBack =>
      cases hcontent.symm.trans hfound
      obtain ⟨_, hvalue⟩ := announces_of_get? hcontent hcell hget
      obtain ⟨_, hvalueBack⟩ := announces_of_get? hcontentBack hback hgetBack
      obtain ⟨mode, rfl, hnormal⟩ := hholds.eq_leaf rfl htype hvalue
      obtain ⟨modeBack, rfl, _⟩ := hholdsBack.eq_leaf rfl htype hvalueBack
      have hsame := LeafType.same_self_of_normal hnormal hfixed
      simp [htype, FieldType.sameCell, hsame]
  | @fixedPoint _ type value read pattern hfound htype hfixed hencode hdecode hget hgetBack =>
      cases hcontent.symm.trans hfound
      obtain ⟨_, hvalue⟩ := announces_of_get? hcontent hcell hget
      obtain ⟨_, hvalueBack⟩ := announces_of_get? hcontentBack hback hgetBack
      obtain ⟨mode, rfl, _⟩ := hholds.eq_leaf rfl htype hvalue
      obtain ⟨modeBack, rfl, _⟩ := hholdsBack.eq_leaf rfl htype hvalueBack
      obtain ⟨other, result, hencoded, hdecoded, hsame⟩ :=
        hsurvives type value (.leaf hcontent htype hget) hfixed
      cases hencode.symm.trans hencoded
      cases hdecode.symm.trans hdecoded
      simp [htype, FieldType.sameCell, hsame]
  | @record _ inner innerBack hfound htype hget hgetBack hreads =>
      cases hcontent.symm.trans hfound
      obtain ⟨_, hvalue⟩ := announces_of_get? hcontent hcell hget
      obtain ⟨_, hvalueBack⟩ := announces_of_get? hcontentBack hback hgetBack
      obtain ⟨cells, mode, rfl, hinner, hcells⟩ := hholds.eq_record rfl htype hvalue
      obtain ⟨cellsBack, modeBack, rfl, rfl, hcellsBack⟩ :=
        hholdsBack.eq_record rfl htype hvalueBack
      have hbuilt := hfits.inner (List.mem_of_getElem? hcontent) _ htype
      obtain ⟨layout, stored⟩ := inner
      cases hinner
      have hsame := hbuilt.sameCells_of_readsBack cells cellsBack hcells hcellsBack hreads
        fun type value hshows => hsurvives type value (.nested hget hshows)
      simp [htype, FieldType.sameCell, hsame]

/-- What reads back is the same, if every present fixed-point value survives. -/
theorem ReadsBack.same (h : c.ReadsBack back) (hfits : c.Fits) (hfitsBack : back.Fits)
    (hword : c.enables.ReadsBack back.enables)
    (hsurvives : ∀ type value, c.Shows type value → type.IsFixedPoint → type.Survives value) :
    back.same c = true := by
  have hsameword : back.enables.same c.enables = true :=
    hword.same hfits.word hfitsBack.word fun type value hshows hfixed =>
      absurd hfixed (hfits.word.not_shows_fixedPoint hfits.flagsOnly hshows)
  have hgroup : decide (back.group = c.group) = true := decide_eq_true h.group
  rw [CifContainer.same, hgroup, hsameword, Bool.true_and, Bool.true_and, List.all_eq_true]
  intro index hindex
  rw [h.group, List.mem_range] at hindex
  obtain ⟨content, hcontent⟩ : ∃ content, c.group.content[index]? = some content :=
    ⟨_, List.getElem?_eq_getElem hindex⟩
  have hcontentBack : back.group.content[index]? = some content := by rw [h.group, hcontent]
  obtain ⟨cell, hcell, _⟩ := exists_at hfits.holds hcontent
  obtain ⟨cellBack, hcellBack, _⟩ := exists_at hfitsBack.holds hcontentBack
  have hentry := entry?_eq hcontent hcell
  have hentryBack := entry?_eq hcontentBack hcellBack
  rw [hentry, hentryBack]
  exact (h.fields index hindex).sameCell hfits hfitsBack h.group hsurvives hcontent hcell hcellBack

end CifContainer

namespace CifBlueprint.Sample

/-- A container of `tuned` with the kind assigned and the gain made required. -/
def announced : CifContainer :=
  ((CifOperation.changeMode "gain" .required).run
    ((CifOperation.within "pair" (.assign "kind" (.scalar (.unsigned 5)))).run (.new tuned)).1).1

theorem reachable_announced : announced.Reachable := by
  have hassign : ∀ operand, (CifOperation.within "pair"
      (.assign "kind" (.scalar (.unsigned 5)))).operand? = some operand → operand.Reachable := by
    intro operand hoperand
    cases hoperand
  have hmode : ∀ operand, (CifOperation.changeMode "gain" .required).operand? = some operand →
      operand.Reachable := by
    intro operand hoperand
    cases hoperand
  exact .run (.run (.new built_tuned) hassign) hmode

end CifBlueprint.Sample

end RadioPacket
