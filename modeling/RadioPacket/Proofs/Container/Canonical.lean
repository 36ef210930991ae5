import RadioPacket.Proofs.Container.Decoding
import RadioPacket.Proofs.Container.ReadBack
import RadioPacket.Proofs.Leaf.Canonical

/-!
# Canonical bytes

Bytes from elsewhere may hold anything in reserved runs, in absent fields and behind the structure,
and may set a wide gate by any of its bits.  Decoding them and encoding the result gives canonical
bytes, in which all of that is zero or uniform and only what is present is kept.  The canonical bits
are spelled out here in terms of the bytes alone, at the offsets where the structures stand, and
they are canonical for themselves: encoding once is as good as encoding again.
-/

namespace RadioPacket

mutual

/-- The canonical bits of a structure that starts at bit `base` of some bytes. -/
def Layout.canonical : Layout → Bytes → (base : Nat) → List Bool
  | ⟨_, slots, _, _, _⟩, data, base => Slot.canonicalAll slots slots data base
termination_by structural layout => layout

/-- The canonical bits of some slots among `all` slots. -/
def Slot.canonicalAll : (slots all : List Slot) → Bytes → (base : Nat) → List Bool
  | [], _, _, _ => []
  | ⟨.enable enable, position, _⟩ :: slots, all, data, base =>
      List.replicate enable.bits
          ((Bits.window data (base + position.offset) enable.bits).any id) ++
        Slot.canonicalAll slots all data base
  | ⟨.field ⟨_, .leaf type, _, _, _, _⟩, position, link⟩ :: slots, all, data, base =>
      (if Slot.opens all data base link then
          type.canonical (Bits.window data (base + position.offset) type.bits)
        else Bits.blank type.bits) ++
        Slot.canonicalAll slots all data base
  | ⟨.field ⟨_, .record layout, _, _, _, _⟩, position, link⟩ :: slots, all, data, base =>
      (if Slot.opens all data base link then layout.canonical data (base + position.offset)
        else Bits.blank layout.bits) ++
        Slot.canonicalAll slots all data base
  | ⟨.reserved run, _, _⟩ :: slots, all, data, base =>
      Bits.blank run.bits ++ Slot.canonicalAll slots all data base
termination_by structural slots => slots

end

/-- The canonical bits of a present field. -/
def FieldType.canonical : FieldType → Bytes → (position : Nat) → List Bool
  | .leaf type, data, position => type.canonical (Bits.window data position type.bits)
  | .record layout, data, position => layout.canonical data position

namespace Slot

/-- The canonical bits of one slot among `all` slots. -/
def canonical (all : List Slot) (data : Bytes) (base : Nat) (slot : Slot) : List Bool :=
  match slot.item with
  | .enable enable =>
      List.replicate enable.bits
        ((Bits.window data (base + slot.position.offset) enable.bits).any id)
  | .field field =>
      if opens all data base slot.link then
        field.type.canonical data (base + slot.position.offset)
      else Bits.blank field.bits
  | .reserved run => Bits.blank run.bits

theorem canonicalAll_eq_flatMap (slots all : List Slot) (data : Bytes) (base : Nat) :
    canonicalAll slots all data base = slots.flatMap (canonical all data base) := by
  induction slots with
  | nil => rfl
  | cons slot slots ih =>
      rw [List.flatMap_cons, ← ih]
      obtain ⟨item, position, link⟩ := slot
      rcases item with ⟨name, type, mode, enabledBy, editable, bit⟩ | enable | run
      · cases type with
        | leaf type => rfl
        | record layout => rfl
      · rfl
      · rfl

theorem length_canonical {all : List Slot} {data : Bytes} {base : Nat} {slot : Slot}
    (hinner : ∀ inner, slot.item.record? = some inner → ∀ position,
      (inner.canonical data position).length = inner.bits) :
    (slot.canonical all data base).length = slot.bits := by
  obtain ⟨item, position, link⟩ := slot
  rcases item with ⟨name, type, mode, enabledBy, editable, bit⟩ | enable | run
  · simp only [canonical]
    split
    · cases type with
      | leaf type => exact LeafType.length_canonical (Bits.length_window _ _ _)
      | record inner => exact hinner inner rfl _
    · exact Bits.length_blank _
  · exact List.length_replicate
  · exact Bits.length_blank run.bits

theorem length_flatMap {slots : List Slot} {piece : Slot → List Bool}
    (hwidth : ∀ slot ∈ slots, (piece slot).length = slot.bits) :
    (slots.flatMap piece).length = Item.totalBits (slots.map Slot.item) := by
  induction slots with
  | nil => rfl
  | cons slot slots ih =>
      rw [List.flatMap_cons, List.length_append, hwidth slot List.mem_cons_self,
        ih fun other hother => hwidth other (List.mem_cons_of_mem slot hother)]
      rfl

theorem Tile.window_flatMap {start : Nat} {slots : List Slot} (h : Tile start slots)
    {piece : Slot → List Bool} (hwidth : ∀ slot ∈ slots, (piece slot).length = slot.bits)
    {data : Bytes} {base : Nat}
    (hwindow : Bits.window data (base + start) (Item.totalBits (slots.map Slot.item)) =
      slots.flatMap piece) :
    ∀ slot ∈ slots, Bits.window data (base + slot.position.offset) slot.bits = piece slot := by
  induction slots generalizing start with
  | nil =>
      intro slot hslot
      cases hslot
  | cons first slots ih =>
      obtain ⟨hposition, htile⟩ := h
      have hbits : first.item.bits = first.bits := rfl
      rw [List.map_cons, Item.totalBits, hbits, Bits.window_add, List.flatMap_cons] at hwindow
      obtain ⟨hfirst, hbehind⟩ :=
        List.append_inj hwindow (by rw [Bits.length_window, hwidth first List.mem_cons_self])
      rw [Nat.add_assoc] at hbehind
      intro slot hslot
      rcases List.mem_cons.mp hslot with rfl | hrest
      · rw [hposition]
        exact hfirst
      · exact ih htile (fun other hother => hwidth other (List.mem_cons_of_mem first hother))
          hbehind slot hrest

end Slot

namespace Layout

theorem canonical_eq_flatMap (layout : Layout) (data : Bytes) (base : Nat) :
    layout.canonical data base =
      layout.slots.flatMap (Slot.canonical layout.slots data base) := by
  obtain ⟨name, slots, bits, warnings, dynamicSize⟩ := layout
  exact Slot.canonicalAll_eq_flatMap slots slots data base

theorem Built.length_canonical {layout : Layout} (h : layout.Built) (data : Bytes) :
    ∀ base, (layout.canonical data base).length = layout.bits := by
  refine h.induct ?_
  intro layout h ih base
  rw [canonical_eq_flatMap, Slot.length_flatMap]
  · exact h.sound.total
  · intro slot hslot
    exact Slot.length_canonical (ih slot hslot)

/-! ## Decoding and encoding -/

/-- The stream of a decoded slot is its canonical bits, if this holds of the structure inside. -/
theorem Sound.stream_of_readCell {layout : Layout} (h : layout.Sound) {data : Bytes} {base : Nat}
    (hfit : base + layout.bits ≤ 8 * data.size) {all : List Cell} {slot : Slot} {cell : Cell}
    (hslot : slot ∈ layout.slots)
    (hopen : ∀ field, slot.item = .field field →
      Cell.isOpen all slot.link = Slot.opens layout.slots data base slot.link)
    (hinner : ∀ inner, slot.item.record? = some inner → ∀ position cells,
      position + inner.bits ≤ 8 * data.size → inner.readAt data position = .ok cells →
        inner.stream cells = inner.canonical data position)
    (hread : slot.readCell layout.slots data base = .ok cell) :
    slot.stream all cell = slot.canonical layout.slots data base := by
  obtain ⟨item, position, link⟩ := slot
  rcases item with ⟨name, type, mode, enabledBy, editable, bit⟩ | enable | run
  · have hlink := hopen _ rfl
    simp only [Slot.readCell] at hread
    simp only [Slot.stream, Slot.canonical, hlink]
    split at hread
    · next hopens =>
        rw [if_pos hopens, if_pos hopens]
        cases type with
        | leaf type =>
            obtain ⟨value, hvalue, rfl⟩ := Fallible.map_eq_ok.mp hread
            have hend : position.offset + type.bits ≤ layout.bits := h.fits_field hslot rfl
            have hbits : base + position.offset + type.bits ≤ 8 * data.size := by omega
            rw [LeafType.readAt_eq name type hbits] at hvalue
            exact LeafType.ofNat_pattern_of_decode (Bits.length_window _ _ _)
              (Fallible.eq_ok_of_mapError hvalue)
        | record inner =>
            obtain ⟨cells, hcells, rfl⟩ := Fallible.map_eq_ok.mp hread
            have hend : position.offset + inner.bits ≤ layout.bits := h.fits_field hslot rfl
            have hbits : base + position.offset + inner.bits ≤ 8 * data.size := by omega
            exact hinner inner rfl _ cells hbits hcells
    · next hclosed => rw [if_neg hclosed, if_neg hclosed]
  · cases hread
    rfl
  · cases hread
    rfl

/-- The stream of what is decoded is the canonical bits. -/
theorem Built.stream_of_readAt {layout : Layout} (h : layout.Built) (data : Bytes) :
    ∀ base cells, base + layout.bits ≤ 8 * data.size → layout.readAt data base = .ok cells →
      layout.stream cells = layout.canonical data base := by
  refine h.induct ?_
  intro layout h ih base cells hfit hread
  rw [h.sound.readAt_eq_mapM hfit, Fallible.mapM_eq_ok] at hread
  have hpieces : List.zipWith (Slot.stream cells) layout.slots cells =
      layout.slots.map (Slot.canonical layout.slots data base) := by
    apply List.ext_getElem
    · rw [List.length_zipWith, List.length_map, ← hread.length_eq, Nat.min_self]
    · intro index hleft hright
      have hslot : index < layout.slots.length := by simpa using hright
      have hcell : index < cells.length := hread.length_eq ▸ hslot
      have hmem : layout.slots[index] ∈ layout.slots := List.getElem_mem hslot
      rw [List.getElem_zipWith, List.getElem_map]
      apply h.sound.stream_of_readCell hfit hmem
      · intro field hfield
        exact h.sound.isOpen_of_readCells hread hmem hfield
      · exact ih _ hmem
      · exact forall₂_at hread (List.getElem?_eq_getElem hslot) (List.getElem?_eq_getElem hcell)
  rw [stream_eq_flatten, canonical_eq_flatMap, hpieces, List.flatMap_def]

/-! ## Canonical bits once more -/

theorem Built.window_canonical {layout : Layout} (h : layout.Built) {data other : Bytes}
    {base start : Nat}
    (hwindow : Bits.window other start layout.bits = layout.canonical data base) :
    ∀ slot ∈ layout.slots, Bits.window other (start + slot.position.offset) slot.bits =
      slot.canonical layout.slots data base := by
  have htotal : Item.totalBits (layout.slots.map Slot.item) = layout.bits := h.sound.total
  apply h.sound.tile.window_flatMap
  · intro slot hslot
    apply Slot.length_canonical
    intro inner hinner
    exact (h.sound.built_of_record? hslot hinner).length_canonical data
  · rw [htotal, Nat.add_zero, hwindow, canonical_eq_flatMap]

/-- Canonical bits open the fields that the bits they come from open. -/
theorem Sound.opens_of_window {layout : Layout} (h : layout.Sound) {data other : Bytes}
    {base start : Nat}
    (hwindows : ∀ slot ∈ layout.slots,
      Bits.window other (start + slot.position.offset) slot.bits =
        slot.canonical layout.slots data base)
    {slot : Slot} (hslot : slot ∈ layout.slots) {field : Field}
    (hfield : slot.item = .field field) :
    Slot.opens layout.slots other start slot.link =
      Slot.opens layout.slots data base slot.link := by
  cases hlink : slot.link with
  | none => rfl
  | some index =>
      obtain ⟨gate, enable, hgate, henable⟩ := h.isEnable_of_link hslot hfield hlink
      have hmem : gate ∈ layout.slots := List.mem_of_getElem? hgate
      have hwide : 0 < gate.bits := h.bits_pos hmem
      have hbits : gate.bits = enable.bits := by rw [Slot.bits, henable, Item.bits]
      have hwindow := hwindows gate hmem
      simp only [Slot.canonical, henable, hbits] at hwindow
      simp only [Slot.opens, hgate, hbits, hwindow, List.any_replicate]
      rw [if_neg (by omega)]
      rfl

/-- A slot that holds canonical bits keeps them, if its fixed-point values settle and if the
structure inside keeps its own. -/
theorem Sound.canonical_of_window {layout : Layout} (h : layout.Sound) {data other : Bytes}
    {base start : Nat}
    (hwindows : ∀ slot ∈ layout.slots,
      Bits.window other (start + slot.position.offset) slot.bits =
        slot.canonical layout.slots data base)
    {slot : Slot} (hslot : slot ∈ layout.slots)
    (hsettles : ∀ site ∈ slot.presentLeaves layout.slots data base,
      site.type.IsFixedPoint → site.type.Settles (site.raw data))
    (hinner : ∀ inner, slot.item.record? = some inner → ∀ position place,
      Bits.window other place inner.bits = inner.canonical data position →
      (∀ site ∈ inner.presentLeaves data position,
        site.type.IsFixedPoint → site.type.Settles (site.raw data)) →
      inner.canonical other place = inner.canonical data position) :
    slot.canonical layout.slots other start = slot.canonical layout.slots data base := by
  have hwindow := hwindows slot hslot
  have hwide := h.bits_pos hslot
  have hopens (field : Field) (hfield : slot.item = .field field) :
      Slot.opens layout.slots other start slot.link =
        Slot.opens layout.slots data base slot.link := h.opens_of_window hwindows hslot hfield
  obtain ⟨item, position, link⟩ := slot
  rcases item with ⟨name, type, mode, enabledBy, editable, bit⟩ | enable | run
  · simp only [Slot.canonical, hopens _ rfl] at hwindow ⊢
    by_cases hopen : Slot.opens layout.slots data base link = true
    · rw [if_pos hopen] at hwindow
      simp only [Slot.presentLeaves, if_pos hopen] at hsettles
      rw [if_pos hopen, if_pos hopen]
      cases type with
      | leaf type =>
          have hleaf : Bits.window other (start + position.offset) type.bits =
              type.canonical (Bits.window data (base + position.offset) type.bits) := hwindow
          have hsettled := hsettles _ (List.mem_singleton.mpr rfl)
          simp only [FieldType.canonical, hleaf]
          exact LeafType.canonical_canonical (Bits.length_window _ _ _) hsettled
      | record inner => exact hinner inner rfl _ _ hwindow hsettles
    · rw [if_neg hopen, if_neg hopen]
  · simp only [Slot.canonical, Slot.bits, Item.bits] at hwindow hwide ⊢
    rw [hwindow, List.any_replicate, if_neg (by omega)]
    rfl
  · rfl

/-- Bits that are canonical already stay as they are, if the fixed-point values settle. -/
theorem Built.canonical_of_window {layout : Layout} (h : layout.Built) (data other : Bytes) :
    ∀ base start, Bits.window other start layout.bits = layout.canonical data base →
      (∀ site ∈ layout.presentLeaves data base,
        site.type.IsFixedPoint → site.type.Settles (site.raw data)) →
      layout.canonical other start = layout.canonical data base := by
  refine h.induct ?_
  intro layout h ih base start hwindow hsettles
  rw [presentLeaves_eq_flatMap] at hsettles
  rw [canonical_eq_flatMap, canonical_eq_flatMap, List.flatMap_def, List.flatMap_def]
  congr 1
  apply List.map_congr_left
  intro slot hslot
  apply h.sound.canonical_of_window (h.window_canonical hwindow) hslot
  · intro site hsite
    exact hsettles site (List.mem_flatMap.mpr ⟨slot, hslot, hsite⟩)
  · intro inner hinner position place
    exact ih slot hslot inner hinner position place

/-- A decoded container fits its layout, and its stream is the canonical bits. -/
theorem Built.stream_of_unpack {layout : Layout} (h : layout.Built) {data : Bytes} {c : Container}
    (hunpack : Container.unpack layout data = .ok c) :
    c.Fits ∧ c.layout = layout ∧ c.stream = layout.canonical data 0 := by
  have hfits : c.Fits := (Container.Reachable.unpack h hunpack).fits
  rw [Container.unpack] at hunpack
  split at hunpack
  · cases hunpack
  · next hsize =>
      obtain ⟨cells, hcells, rfl⟩ := Fallible.map_eq_ok.mp hunpack
      have hfit := fits_of_bytes_le (Nat.le_of_not_lt hsize)
      exact ⟨hfits, rfl, h.stream_of_readAt data 0 cells hfit hcells⟩

/-- Decoding bytes and encoding the result gives their canonical bits, filled up with zeros to whole
bytes, whatever the bytes hold in places that do not count.  What is encoded can be decoded, and
encoding that gives the same bytes again, if the pattern of every present fixed-point value decodes
to a value with that same pattern. -/
theorem Built.pack_unpack {layout : Layout} (h : layout.Built) {data : Bytes} {c : Container}
    (hunpack : Container.unpack layout data = .ok c) :
    c.pack.size = layout.bytes ∧
      (layout.canonical data 0).length = layout.bits ∧
      Bits.ofBytes c.pack = layout.canonical data 0 ++
        List.replicate (8 * layout.bytes - layout.bits) false ∧
      ∃ back, Container.unpack layout c.pack = .ok back ∧
        ((∀ site ∈ layout.presentLeaves data 0,
          site.type.IsFixedPoint → site.type.Settles (site.raw data)) → back.pack = c.pack) := by
  obtain ⟨hfits, hlayout, hstream⟩ := h.stream_of_unpack hunpack
  subst hlayout
  have hsize := hfits.size_pack
  have hbytes := hfits.ofBytes_pack
  have hwindow := hfits.window_pack
  have hfit : 0 + c.layout.bits ≤ 8 * c.pack.size := fits_of_bytes_le (Nat.le_of_eq hsize.symm)
  obtain ⟨cells, hcells, _⟩ := h.readsBack c.pack c.cells 0 hfits.holds hfit hwindow
  have hback : Container.unpack c.layout c.pack = .ok ⟨c.layout, cells⟩ := by
    rw [Container.unpack, if_neg (by omega), hcells]
    rfl
  rw [hstream] at hbytes hwindow
  refine ⟨hsize, h.length_canonical data 0, hbytes, ⟨c.layout, cells⟩, hback, ?_⟩
  intro hsettles
  obtain ⟨hbackFits, _, hbackStream⟩ := h.stream_of_unpack hback
  apply Bits.ofBytes_injective
  rw [hbackFits.ofBytes_pack, hbackStream, hbytes,
    h.canonical_of_window data c.pack 0 0 hwindow hsettles]

namespace Sample

theorem settles_level : level.Settles 129 := by
  intro value pattern hvalue hpattern
  have hread : level.decode 129 = .ok (.float (.ofScaled (-127) 4)) := by decide +kernel
  have hwritten : level.encode (.float (.ofScaled (-127) 4)) = .ok 129 := by decide +kernel
  cases hread.symm.trans hvalue
  cases hwritten.symm.trans hpattern
  exact ⟨_, hread, hwritten⟩

/-- Ones in the reserved bits, behind the last bit and in a third byte do not come back, and the
bytes that do come back come back again. -/
theorem pack_unpack_dirty :
    fullLayout.Built ∧ ∃ c back, Container.unpack fullLayout #[246, 7, 255] = .ok c ∧
      c.pack = #[150, 4] ∧ Container.unpack fullLayout #[150, 4] = .ok back ∧
      back.pack = #[150, 4] := by
  have hsize : fullLayout.bytes ≤ (#[246, 7, 255] : Bytes).size := by decide
  have hfault : Fallible.error? (Container.unpack fullLayout #[246, 7, 255]) = none := by
    rw [built_fullLayout.error?_unpack hsize]
    decide +kernel
  obtain ⟨c, hc⟩ := Fallible.error?_eq_none.mp hfault
  obtain ⟨_, _, hbits, back, hback, hagain⟩ := Built.pack_unpack built_fullLayout hc
  have hpack : c.pack = #[150, 4] := by
    apply Bits.ofBytes_injective
    rw [hbits]
    decide +kernel
  rw [hpack] at hback hagain
  refine ⟨built_fullLayout, c, back, hc, hpack, hback, hagain ?_⟩
  intro site hsite hfixed
  have hsites : fullLayout.presentLeaves #[246, 7, 255] 0 =
      [⟨"kind", kind, 3⟩, ⟨"level", level, 6⟩] := rfl
  rw [hsites, List.mem_cons, List.mem_singleton] at hsite
  rcases hsite with rfl | rfl
  · obtain ⟨_, _, _, hshape⟩ := hfixed
    cases hshape
  · exact settles_level

end Sample

end Layout

end RadioPacket
