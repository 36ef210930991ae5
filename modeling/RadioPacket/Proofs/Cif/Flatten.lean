import RadioPacket.Proofs.Cif.Flat
import RadioPacket.Proofs.Cif.WireFormat

/-!
# The cells of a group in its flat structure

The cells of a group, those of the word first and those of the payload behind them, are cells of the
flat structure.  A new group is a new container of the flat structure in this way, the enables of a
group are the gates of its payload fields, and when every field is present both are packed to the
same bytes.
-/

namespace RadioPacket

namespace CifContainer

/-- The cells of the group as a container of the flat structure. -/
def flatten (c : CifContainer) (flat : Layout) : Container := ⟨flat, c.enables.cells ++ c.cells⟩

/-- The container holds as many cells as the group asks for. -/
structure Shaped (c : CifContainer) : Prop where
  layout : c.enables.layout = c.group.enables
  word : c.enables.cells.length = c.group.enables.slots.length
  payload : c.cells.length = c.group.content.length

variable {c : CifContainer} {index : Nat} {content : CifContent}

theorem getElem?_flatten_word (flat : Layout) (h : index < c.enables.cells.length) :
    (c.flatten flat).cells[index]? = c.enables.cells[index]? := List.getElem?_append_left h

theorem getElem?_flatten_payload (flat : Layout) (index : Nat) :
    (c.flatten flat).cells[c.enables.cells.length + index]? = c.cells[index]? := by
  rw [flatten, List.getElem?_append_right (Nat.le_add_right _ _), Nat.add_sub_cancel_left]

theorem flatten_put (flat : Layout) (cell : Cell) :
    (c.put index cell).flatten flat =
      (c.flatten flat).put (c.enables.cells.length + index) cell := by
  rw [flatten, flatten, Container.put, put, List.set_append_right _ _ (Nat.le_add_right _ _),
    Nat.add_sub_cancel_left]

theorem flatten_mark (flat : Layout) (h : content.enable < c.enables.cells.length)
    (present : Bool) :
    (c.mark content present).flatten flat =
      (c.flatten flat).mark (some content.enable) present :=
  congrArg (Container.mk flat) (List.set_append_left _ _ h).symm

namespace Shaped

theorem put (h : c.Shaped) (cell : Cell) : (c.put index cell).Shaped :=
  ⟨h.layout, h.word, List.length_set.trans h.payload⟩

theorem mark (h : c.Shaped) (present : Bool) : (c.mark content present).Shaped :=
  ⟨h.layout, List.length_set.trans h.word, h.payload⟩

end Shaped

theorem Fits.shaped (h : c.Fits) : c.Shaped where
  layout := h.layout
  word := by
    rw [← h.layout]
    exact h.word.holds.length_eq.symm
  payload := h.holds.length_eq.symm

end CifContainer

namespace CifGroup.Flattens

variable {c : CifContainer} {rename : String → String} (h : c.group.Flattens rename) (hc : c.Shaped)

include h hc

theorem enable_lt {content : CifContent} (hcontent : content ∈ c.group.content) :
    content.enable < c.enables.cells.length := by
  rw [hc.word]
  exact (List.getElem?_eq_some_iff.mp (h.built.enable_slot hcontent).1).1

/-- The gate of a payload field in the flat structure is its enable in the word. -/
theorem isOpen_flatten {content : CifContent} (hcontent : content ∈ c.group.content)
    (flat : Layout) :
    Cell.isOpen (c.flatten flat).cells (some content.enable) = c.announces content := by
  simp only [Cell.isOpen, CifContainer.announces, Cell.isSetAt,
    CifContainer.getElem?_flatten_word flat (h.enable_lt hc hcontent)]

end CifGroup.Flattens

/-! ## Names -/

theorem CifGroup.names_or (group : CifGroup) (name : String) :
    (∃ content ∈ group.content, content.name = name) ∨
      ∀ content ∈ group.content, name ≠ content.name := by
  by_cases hpayload : ∃ content ∈ group.content, content.name = name
  · exact .inl hpayload
  · exact .inr fun content hcontent hname => hpayload ⟨content, hcontent, hname.symm⟩

theorem CifGroup.Built.index?_content {c : CifContainer} (h : c.group.Built) {index : Nat}
    {content : CifContent} (hcontent : c.group.content[index]? = some content) :
    c.index? content.name = some index := by
  obtain ⟨hlt, rfl⟩ := List.getElem?_eq_some_iff.mp hcontent
  rw [CifContainer.index?, List.findIdx?_eq_some_iff_getElem]
  refine ⟨hlt, beq_self_eq_true _, ?_⟩
  intro earlier hearlier hname
  have hnames := h.nodup_names
  rw [List.Nodup, List.pairwise_map, List.pairwise_iff_getElem] at hnames
  exact hnames earlier index (Nat.lt_trans hearlier hlt) hlt hearlier (eq_of_beq hname)

namespace CifContainer

theorem index?_eq_none {c : CifContainer} {name : String}
    (hother : ∀ content ∈ c.group.content, name ≠ content.name) : c.index? name = none := by
  rw [index?, List.findIdx?_eq_none_iff]
  intro content hcontent
  exact beq_false_of_ne (hother content hcontent).symm

/-- A payload field with its cell, and the slot and the cell that it has in the flat structure. -/
structure PayloadAt (c : CifContainer) (rename : String → String) (content : CifContent)
    (index : Nat) (cell : Cell) (slot : Slot) : Prop where
  found : c.index? content.name = some index
  declared : c.group.content[index]? = some content
  holds : c.cells[index]? = some cell
  target : (c.group.flatLayout rename).index? content.name =
    some (c.enables.cells.length + index)
  placed : (c.group.flatLayout rename).slots[c.enables.cells.length + index]? = some slot
  item : slot.item = .field (content.gated (rename content.name))
  link : slot.link = some content.enable
  stored : (c.flatten (c.group.flatLayout rename)).cells[c.enables.cells.length + index]? =
    some cell

/-- An item of the word with its cell, and the slot and the cell that it has in the flat structure,
neither of them linked. -/
structure WordAt (c : CifContainer) (rename : String → String) (index : Nat) (cell : Cell)
    (slot copy : Slot) : Prop where
  placed : c.enables.layout.slots[index]? = some slot
  holds : c.enables.cells[index]? = some cell
  link : slot.link = none
  copied : (c.group.flatLayout rename).slots[index]? = some copy
  stored : (c.flatten (c.group.flatLayout rename)).cells[index]? = some cell
  item : copy.item = slot.item
  copy_link : copy.link = none

end CifContainer

namespace CifGroup.Flattens

variable {c : CifContainer} {rename : String → String} (h : c.group.Flattens rename) (hc : c.Shaped)

include h hc

theorem payload_at {content : CifContent} (hcontent : content ∈ c.group.content) :
    ∃ index cell slot, c.PayloadAt rename content index cell slot := by
  obtain ⟨index, hindex⟩ := List.mem_iff_getElem?.mp hcontent
  have hlt : index < c.cells.length := by
    rw [hc.payload]
    exact (List.getElem?_eq_some_iff.mp hindex).1
  have hcell := List.getElem?_eq_getElem hlt
  obtain ⟨slot, hslot, hitem⟩ := payload_slot rename hindex
  have hlink := h.payload_link hcontent (List.mem_of_getElem? hslot) hitem
  have htarget := h.index?_payload hindex
  rw [← hc.word] at hslot htarget
  exact ⟨index, c.cells[index], slot, h.built.index?_content hindex, hindex, hcell, htarget, hslot,
    hitem, hlink, (c.getElem?_flatten_payload _ index).trans hcell⟩

theorem word_at {name : String} (hother : ∀ content ∈ c.group.content, name ≠ content.name)
    {index : Nat} (hindex : c.group.enables.index? name = some index) :
    ∃ cell slot copy, c.WordAt rename index cell slot copy := by
  obtain ⟨slot, copy, hslot, hcopy, hitem, hlink, hcopylink⟩ := h.word_item hother hindex
  have hlt : index < c.enables.cells.length := by
    rw [hc.word]
    exact (List.getElem?_eq_some_iff.mp hslot).1
  have hcell := List.getElem?_eq_getElem hlt
  rw [← hc.layout] at hslot
  exact ⟨c.enables.cells[index], slot, copy, hslot, hcell, hlink, hcopy,
    (CifContainer.getElem?_flatten_word _ hlt).trans hcell, hitem, hcopylink⟩

end CifGroup.Flattens

/-! ## New containers -/

namespace CifContainer

variable {enables : Container} {contents : List CifContent} {content : CifContent} {index : Nat}

theorem getElem?_markDeclared_of_ne (hne : content.enable ≠ index) :
    (markDeclared enables content).cells[index]? = enables.cells[index]? := by
  unfold markDeclared
  split
  · rfl
  · exact List.getElem?_set_ne hne

theorem getElem?_foldl_of_ne (hne : ∀ content ∈ contents, content.enable ≠ index) :
    (contents.foldl markDeclared enables).cells[index]? = enables.cells[index]? := by
  induction contents generalizing enables with
  | nil => rfl
  | cons content contents ih =>
      obtain ⟨hfirst, hrest⟩ := List.forall_mem_cons.mp hne
      rw [List.foldl_cons, ih hrest, getElem?_markDeclared_of_ne hfirst]

/-- The enable of a payload field comes to be as the declared mode of the field says. -/
theorem getElem?_foldl_enable (hdistinct : (contents.map CifContent.enable).Nodup)
    (hcontent : content ∈ contents)
    (hcell : enables.cells[content.enable]? = some (.enable false)) :
    (contents.foldl markDeclared enables).cells[content.enable]? =
      some (.enable (content.mode.presence?.getD false)) := by
  induction contents generalizing enables with
  | nil => cases hcontent
  | cons first rest ih =>
      rw [List.map_cons, List.nodup_cons] at hdistinct
      obtain ⟨hfirst, hrest⟩ := hdistinct
      rw [List.foldl_cons]
      rcases List.mem_cons.mp hcontent with rfl | hmem
      · have hothers : ∀ other ∈ rest, other.enable ≠ content.enable := fun other hother hsame =>
          hfirst (hsame ▸ List.mem_map_of_mem hother)
        rw [getElem?_foldl_of_ne hothers, markDeclared]
        split
        · next hnone =>
            rw [hnone]
            exact hcell
        · next present hpresent =>
            rw [hpresent]
            exact List.getElem?_set_self (List.getElem?_eq_some_iff.mp hcell).1
      · refine ih hrest hmem ?_
        rw [getElem?_markDeclared_of_ne fun hsame =>
          hfirst (hsame ▸ List.mem_map_of_mem hmem)]
        exact hcell

end CifContainer

namespace CifGroup

variable {group : CifGroup} {rename : String → String}

theorem Built.nodup_enables (h : group.Built) : (group.content.map CifContent.enable).Nodup := by
  refine (List.Nodup.of_map _ h.nodup_names).map_on ?_
  intro a ha b hb hsame
  obtain ⟨hslot, _⟩ := h.enable_slot ha
  obtain ⟨hother, _⟩ := h.enable_slot hb
  rw [hsame, hother, Option.some.injEq, Slot.mk.injEq, Item.enable.injEq, Enable.mk.injEq] at hslot
  exact h.eq_of_name ha hb hslot.1.1.symm

theorem Flattens.getElem?_new_word (h : group.Flattens rename) {index : Nat} {slot other : Slot}
    (hslot : group.enables.slots[index]? = some slot)
    (hother : (group.flatLayout rename).slots[index]? = some other)
    (hitem : other.item = slot.item.renameEnable rename) :
    (CifContainer.new group).enables.cells[index]? =
      some (other.freshCell (group.flatLayout rename).slots) := by
  have hfresh := Container.getElem?_new hslot
  have hmem : slot.item ∈ group.enables.items := List.mem_map_of_mem (List.mem_of_getElem? hslot)
  by_cases hsolid : slot.item.enable? = none
  · -- No payload field has its enable here, and what else is here is new in the same way.
    have hunmarked : ∀ content ∈ group.content, content.enable ≠ index := by
      rintro content hcontent rfl
      obtain rfl := Option.some.inj (hslot.symm.trans (h.built.enable_slot hcontent).1)
      cases hsolid
    rw [Item.renameEnable_eq_self hsolid] at hitem
    have hcell : other.freshCell (group.flatLayout rename).slots =
        slot.freshCell group.enables.slots := by
      unfold Slot.freshCell
      rw [hitem]
      obtain ⟨item, _, _⟩ := slot
      obtain field | enable | run := item
      · rfl
      · cases hsolid
      · rfl
    rw [CifContainer.new, CifContainer.getElem?_foldl_of_ne hunmarked, hcell]
    exact hfresh
  · obtain ⟨enable, henable⟩ := Option.ne_none_iff_exists'.mp hsolid
    have hgate : slot.item = .enable enable := by
      obtain ⟨item, _, _⟩ := slot
      obtain field | found | run := item
      · cases henable
      · exact congrArg Item.enable (Option.some.inj henable)
      · cases henable
    obtain ⟨content, hcontent, rfl⟩ := h.built.eq_gate (hgate ▸ hmem)
    have hname : slot.name? = some content.name := by
      rw [Slot.name?, hgate]
      rfl
    obtain rfl : content.enable = index :=
      h.built.word.sound.eq_of_name? (h.built.enable_slot hcontent).1 hslot rfl hname
    obtain ⟨place, hplace⟩ := List.mem_iff_getElem?.mp hcontent
    obtain ⟨field, hfield, hfielditem⟩ := payload_slot rename hplace
    rw [hgate] at hitem
    rw [Slot.freshCell_gate hitem (h.enable_link hplace hother) hfield hfielditem]
    refine CifContainer.getElem?_foldl_enable h.built.nodup_enables hcontent ?_
    rw [hfresh, Slot.freshCell, hgate, h.built.unlinked (List.mem_of_getElem? hslot)]
    rfl

/-- A new group is a new container of the flat structure. -/
theorem Flattens.flatten_new (h : group.Flattens rename) :
    (CifContainer.new group).flatten (group.flatLayout rename) =
      Container.new (group.flatLayout rename) := by
  have hshaped := (CifContainer.fits_new h.built).shaped
  have hword : (CifContainer.new group).enables.cells.length = group.enables.slots.length :=
    hshaped.word
  apply congrArg (Container.mk (group.flatLayout rename))
  apply List.ext_getElem?
  intro index
  cases hother : (group.flatLayout rename).slots[index]? with
  | none =>
      have hpayload : (CifContainer.new group).cells.length = group.content.length :=
        hshaped.payload
      have hle := List.getElem?_eq_none_iff.mp hother
      rw [Layout.freshCells_eq_map, List.getElem?_map, hother, Option.map_none,
        List.getElem?_eq_none_iff, List.length_append, hword, hpayload]
      rwa [length_slots] at hle
  | some other =>
      refine Eq.trans ?_ (Container.getElem?_new hother).symm
      rcases slot_cases hother with ⟨slot, hslot, hitem⟩ | ⟨place, content, rfl, hcontent, hitem⟩
      · have hlt := (List.getElem?_eq_some_iff.mp hslot).1
        rw [List.getElem?_append_left (hword.symm ▸ hlt)]
        exact h.getElem?_new_word hslot hother hitem
      · rw [← hword, List.getElem?_append_right (Nat.le_add_right _ _), Nat.add_sub_cancel_left,
          CifContainer.new, CifContainer.freshCells, List.getElem?_map, hcontent, Slot.freshCell,
          hitem]
        rfl

/-! ## Packed containers -/

theorem holds_renamed {slot other : Slot} {cell : Cell} (h : slot.Holds cell)
    (hitem : other.item = slot.item.renameEnable rename) : other.Holds cell := by
  cases h with
  | enable henable => exact .enable (by rw [hitem, henable]; rfl)
  | leaf hfield htype hnormal => exact .leaf (by rw [hitem, hfield]; rfl) htype hnormal
  | record hfield htype hcells => exact .record (by rw [hitem, hfield]; rfl) htype hcells
  | reserved hreserved => exact .reserved (by rw [hitem, hreserved]; rfl)

theorem holds_gated {content : CifContent} {gate : String} {other : Slot} {cell : Cell}
    (h : content.slot.Holds cell) (hitem : other.item = .field (content.gated gate)) :
    other.Holds cell := by
  have hown : content.slot.item = .field content.field := rfl
  cases h with
  | enable henable => cases hown.symm.trans henable
  | leaf hfield htype hnormal =>
      obtain rfl := Item.field.inj (hown.symm.trans hfield)
      exact .leaf hitem htype hnormal
  | record hfield htype hcells =>
      obtain rfl := Item.field.inj (hown.symm.trans hfield)
      exact .record hitem htype hcells
  | reserved hreserved => cases hown.symm.trans hreserved

namespace Flattens

variable {c : CifContainer} (h : c.group.Flattens rename) (hc : c.Fits)

include h hc

theorem fits_flatten : (c.flatten (c.group.flatLayout rename)).Fits := by
  have hshaped := hc.shaped
  refine ⟨h.built_flatLayout, forall₂_of_at ?_ ?_⟩
  · rw [CifContainer.flatten, List.length_append, hshaped.word, hshaped.payload]
    exact length_slots rename
  · intro index other cell hother hcell
    rcases slot_cases hother with ⟨slot, hslot, hitem⟩ | ⟨place, content, rfl, hcontent, hitem⟩
    · rw [← hshaped.layout] at hslot
      obtain ⟨found, hfound, hholds⟩ := hc.word.holds.cell hslot
      have hlt := (List.getElem?_eq_some_iff.mp hfound).1
      rw [CifContainer.getElem?_flatten_word _ hlt, hfound] at hcell
      exact Option.some.inj hcell ▸ holds_renamed hholds hitem
    · rw [← hshaped.word, CifContainer.getElem?_flatten_payload] at hcell
      exact holds_gated (forall₂_at hc.holds hcontent hcell) hitem

omit hc in
theorem stream_word {slot other : Slot} (hslot : slot ∈ c.group.enables.slots)
    (hother : other ∈ (c.group.flatLayout rename).slots)
    (hitem : other.item = slot.item.renameEnable rename) (all cells : List Cell) (cell : Cell) :
    other.stream all cell = slot.stream cells cell := by
  have hmem : slot.item ∈ c.group.enables.items := List.mem_map_of_mem hslot
  unfold Slot.stream
  cases hkind : slot.item with
  | field field =>
      rw [hkind] at hitem hmem
      have hlink : other.link = none := h.word_link hother (hitem ▸ hmem) (by rw [hitem]; rfl)
      simp only [hitem, Item.renameEnable, hlink, h.built.unlinked hslot]
      rfl
  | enable enable => simp only [hitem, hkind, Item.renameEnable]
  | reserved run => simp only [hitem, hkind, Item.renameEnable]

/-- When every payload field is present, the flat structure has the bits of the group. -/
theorem stream_flatten (hall : ∀ content ∈ c.group.content, c.announces content = true) :
    (c.flatten (c.group.flatLayout rename)).stream = c.stream := by
  have hshaped := hc.shaped
  rw [Container.stream, CifContainer.stream, Container.stream, Layout.stream_eq_flatten,
    Layout.stream_eq_flatten, CifContainer.payloadStream_eq_flatten, ← List.flatten_append,
    hshaped.layout]
  congr 1
  apply List.ext_getElem?
  intro index
  have hlength : (List.zipWith (Slot.stream c.enables.cells) c.group.enables.slots
      c.enables.cells).length = c.enables.cells.length := by
    rw [List.length_zipWith, hshaped.word, Nat.min_self]
  cases hother : (c.flatten (c.group.flatLayout rename)).layout.slots[index]? with
  | none =>
      have hle := List.getElem?_eq_none_iff.mp hother
      have hslots : (c.group.flatLayout rename).slots.length =
          c.group.enables.slots.length + c.group.content.length := length_slots rename
      rw [List.getElem?_zipWith, hother, eq_comm, List.getElem?_eq_none_iff, List.length_append,
        hlength, List.length_zipWith, hshaped.payload, Nat.min_self, hshaped.word, ← hslots]
      exact hle
  | some other =>
      have hmem := List.mem_of_getElem? hother
      rcases slot_cases hother with ⟨slot, hslot, hitem⟩ | ⟨place, content, rfl, hcontent, hitem⟩
      · have hlt : index < c.enables.cells.length := by
          rw [hshaped.word]
          exact (List.getElem?_eq_some_iff.mp hslot).1
        have hcell := List.getElem?_eq_getElem hlt
        have hflat :=
          (CifContainer.getElem?_flatten_word (c.group.flatLayout rename) hlt).trans hcell
        rw [List.getElem?_append_left (hlength.symm ▸ hlt), List.getElem?_zipWith,
          List.getElem?_zipWith, hother, hslot, hcell, hflat]
        exact congrArg some (h.stream_word (List.mem_of_getElem? hslot) hmem hitem _ _ _)
      · have hin := List.mem_of_getElem? hcontent
        obtain ⟨cell, hcell, _⟩ := exists_at hc.holds hcontent
        rw [← hshaped.word] at hother ⊢
        have hflat := (c.getElem?_flatten_payload (c.group.flatLayout rename) place).trans hcell
        have hopen := h.isOpen_flatten hshaped hin (c.group.flatLayout rename)
        rw [hall content hin] at hopen
        rw [List.getElem?_append_right (by rw [hlength]; omega), hlength, Nat.add_sub_cancel_left,
          List.getElem?_zipWith, List.getElem?_zipWith, hother, hcontent, hcell, hflat]
        have hsent : other.stream (c.flatten (c.group.flatLayout rename)).cells cell =
            content.type.stream cell := by
          simp only [Slot.stream, hitem, h.payload_link hin hmem hitem, hopen]
          rfl
        have hannounced : (if Cell.isSetAt c.enables.cells content.enable = true then
            content.type.stream cell else []) = content.type.stream cell :=
          if_pos (hall content hin)
        exact congrArg some (hsent.trans hannounced.symm)

/-- When every payload field is present, the flat structure packs to the bytes of the group. -/
theorem pack_flatten (hall : ∀ content ∈ c.group.content, c.announces content = true) :
    (c.flatten (c.group.flatLayout rename)).pack = c.pack := by
  have hfits := h.fits_flatten hc
  have hstream := h.stream_flatten hc hall
  have hbits : (c.flatten (c.group.flatLayout rename)).layout.bits = c.packedBits := by
    rw [← hc.length_stream, ← hstream]
    exact (hfits.built.written _ hfits.holds).width.symm
  apply Bits.ofBytes_injective
  rw [hfits.ofBytes_pack, hc.ofBytes_pack, hstream, hc.size_pack, Layout.bytes, hbits]

end Flattens

end CifGroup

end RadioPacket
