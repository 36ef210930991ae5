import RadioPacket.Proofs.Container.Reading

/-!
# Bits that carry data

Which bits of a packet matter depends on the packet: an enable is always read, a leaf field is read
where the enables around it are set, and nothing else is.  Here these bits are named, those that
carry nothing are named as well, and unpacking is shown to depend on the first alone, so that it has
the same outcome for all bytes that agree on them, down to the cells of fields that are absent.
-/

namespace RadioPacket

/-! ## Bytes that agree -/

/-- Two byte strings hold the same bits from one place to another. -/
def Bits.Agree (a b : Bytes) (position width : Nat) : Prop :=
  ∀ q, position ≤ q → q < position + width → bitAt a q = bitAt b q

theorem Bits.Agree.part {a b : Bytes} {position width inner innerWidth : Nat}
    (h : Agree a b position width) (hstart : position ≤ inner)
    (hend : inner + innerWidth ≤ position + width) : Agree a b inner innerWidth :=
  fun q hlow hhigh => h q (by omega) (by omega)

theorem LeafType.readAt_congr {a b : Bytes} {position : Nat} (field : String) (type : LeafType)
    (ha : position + type.bits ≤ 8 * a.size) (hb : position + type.bits ≤ 8 * b.size)
    (h : Bits.Agree a b position type.bits) :
    type.readAt a position field = type.readAt b position field := by
  rw [readAt_eq field type ha, readAt_eq field type hb, Bits.window_congr h]

/-! ## Carried and idle bits -/

/-- The bit is one of the slot, in a structure that starts at bit `base`. -/
def Slot.Spans (slot : Slot) (base q : Nat) : Prop :=
  base + slot.position.offset ≤ q ∧ q < base + slot.position.offset + slot.bits

namespace Layout

/-- The bit carries data: it is one of an enable or of a leaf field, and every field around it is
present. -/
inductive Carries (data : Bytes) : Layout → (base q : Nat) → Prop where
  | enable {layout : Layout} {base q : Nat} {slot : Slot} {enable : Enable} :
      slot ∈ layout.slots → slot.item = .enable enable → slot.Spans base q →
      Carries data layout base q
  | leaf {layout : Layout} {base q : Nat} {slot : Slot} {field : Field} {type : LeafType} :
      slot ∈ layout.slots → slot.item = .field field → field.type = .leaf type →
      Slot.opens layout.slots data base slot.link = true → slot.Spans base q →
      Carries data layout base q
  | record {layout inner : Layout} {base q : Nat} {slot : Slot} {field : Field} :
      slot ∈ layout.slots → slot.item = .field field → field.type = .record inner →
      Slot.opens layout.slots data base slot.link = true →
      Carries data inner (base + slot.position.offset) q → Carries data layout base q

/-- The bit carries nothing: it is reserved or one of an absent field. -/
inductive Idle (data : Bytes) : Layout → (base q : Nat) → Prop where
  | reserved {layout : Layout} {base q : Nat} {slot : Slot} {run : Reserved} :
      slot ∈ layout.slots → slot.item = .reserved run → slot.Spans base q →
      Idle data layout base q
  | absent {layout : Layout} {base q : Nat} {slot : Slot} {field : Field} :
      slot ∈ layout.slots → slot.item = .field field →
      Slot.opens layout.slots data base slot.link = false → slot.Spans base q →
      Idle data layout base q
  | record {layout inner : Layout} {base q : Nat} {slot : Slot} {field : Field} :
      slot ∈ layout.slots → slot.item = .field field → field.type = .record inner →
      Slot.opens layout.slots data base slot.link = true →
      Idle data inner (base + slot.position.offset) q → Idle data layout base q

end Layout

/-! ## Every bit is one or the other -/

namespace Slot.Tile

variable {start : Nat} {slots : List Slot} {slot other : Slot}

theorem le_offset (h : Tile start slots) (hslot : slot ∈ slots) : start ≤ slot.position.offset := by
  induction slots generalizing start with
  | nil => cases hslot
  | cons first rest ih =>
    obtain ⟨hfirst, hrest⟩ := h
    rcases List.mem_cons.mp hslot with rfl | hslot
    · exact Nat.le_of_eq hfirst.symm
    · exact Nat.le_of_add_right_le (ih hrest hslot)

theorem eq_of_spans (h : Tile start slots) (hslot : slot ∈ slots) (hother : other ∈ slots)
    {base q : Nat} (hq : slot.Spans base q) (hq' : other.Spans base q) : slot = other := by
  obtain ⟨hlow, hhigh⟩ := hq
  obtain ⟨hlow', hhigh'⟩ := hq'
  induction slots generalizing start with
  | nil => cases hslot
  | cons first rest ih =>
    obtain ⟨hfirst, hrest⟩ := h
    rcases List.mem_cons.mp hslot with rfl | hbehind
    · rcases List.mem_cons.mp hother with rfl | hbehind
      · rfl
      · have := le_offset hrest hbehind
        omega
    · rcases List.mem_cons.mp hother with rfl | hbehind'
      · have := le_offset hrest hbehind
        omega
      · exact ih hrest hbehind hbehind'

end Slot.Tile

namespace Layout

variable {layout : Layout} {data other : Bytes} {base q : Nat}

theorem Sound.exists_spans (h : layout.Sound) (hlow : base ≤ q) (hhigh : q < base + layout.bits) :
    ∃ slot ∈ layout.slots, slot.Spans base q := by
  have htotal : Item.totalBits (layout.slots.map Slot.item) = layout.bits := h.total
  obtain ⟨slot, hslot, hstart, hend⟩ : ∃ slot ∈ layout.slots,
      slot.position.offset ≤ q - base ∧ q - base < slot.finish.offset :=
    h.tile.exists_covering (by omega) (by omega)
  have hfinish : slot.finish.offset = slot.position.offset + slot.bits := rfl
  exact ⟨slot, hslot, by omega, by omega⟩

theorem Sound.spans_within (h : layout.Sound) {slot : Slot} (hslot : slot ∈ layout.slots)
    (hq : slot.Spans base q) : base ≤ q ∧ q < base + layout.bits := by
  have hend := h.fits hslot
  obtain ⟨hlow, hhigh⟩ := hq
  omega

theorem spans_record_iff {slot : Slot} {field : Field} {inner : Layout}
    (hitem : slot.item = .field field) (htype : field.type = .record inner) :
    slot.Spans base q ↔
      base + slot.position.offset ≤ q ∧ q < base + slot.position.offset + inner.bits := by
  have hbits : slot.bits = inner.bits := by
    rw [Slot.bits, hitem, Item.bits, Field.bits, htype]
    rfl
  rw [Slot.Spans, hbits]

theorem Built.carries_within (h : layout.Built) :
    ∀ base q, layout.Carries data base q → base ≤ q ∧ q < base + layout.bits := by
  refine h.induct ?_
  intro layout h ih base q hcarries
  cases hcarries with
  | enable hslot _ hq => exact h.sound.spans_within hslot hq
  | leaf hslot _ _ _ hq => exact h.sound.spans_within hslot hq
  | record hslot hitem htype _ hinner =>
    have hq := ih _ hslot _ (Item.record?_of_field hitem htype) _ _ hinner
    exact h.sound.spans_within hslot ((spans_record_iff hitem htype).mpr hq)

theorem Built.idle_within (h : layout.Built) :
    ∀ base q, layout.Idle data base q → base ≤ q ∧ q < base + layout.bits := by
  refine h.induct ?_
  intro layout h ih base q hidle
  cases hidle with
  | reserved hslot _ hq => exact h.sound.spans_within hslot hq
  | absent hslot _ _ hq => exact h.sound.spans_within hslot hq
  | record hslot hitem htype _ hinner =>
    have hq := ih _ hslot _ (Item.record?_of_field hitem htype) _ _ hinner
    exact h.sound.spans_within hslot ((spans_record_iff hitem htype).mpr hq)

/-- Every bit of a structure carries data or nothing. -/
theorem Built.carries_or_idle (h : layout.Built) :
    ∀ base q, base ≤ q → q < base + layout.bits →
      layout.Carries data base q ∨ layout.Idle data base q := by
  refine h.induct ?_
  intro layout h ih base q hlow hhigh
  obtain ⟨slot, hslot, hq⟩ := h.sound.exists_spans hlow hhigh
  cases hitem : slot.item with
  | enable enable => exact .inl (.enable hslot hitem hq)
  | reserved run => exact .inr (.reserved hslot hitem hq)
  | field field =>
    cases hopens : Slot.opens layout.slots data base slot.link with
    | false => exact .inr (.absent hslot hitem hopens hq)
    | true =>
      cases htype : field.type with
      | leaf type => exact .inl (.leaf hslot hitem htype hopens hq)
      | record inner =>
        obtain ⟨hstart, hend⟩ := (spans_record_iff hitem htype).mp hq
        rcases ih slot hslot inner (Item.record?_of_field hitem htype) _ q hstart hend with
          hcarries | hidle
        · exact .inl (.record hslot hitem htype hopens hcarries)
        · exact .inr (.record hslot hitem htype hopens hidle)

/-- No bit of a structure does both. -/
theorem Built.not_idle_of_carries (h : layout.Built) :
    ∀ base q, layout.Carries data base q → ¬ layout.Idle data base q := by
  refine h.induct ?_
  intro layout h ih base q hcarries hidle
  -- Both name a slot that has the bit, so they name the same one.
  have hsame : ∀ {slot other : Slot}, slot ∈ layout.slots → other ∈ layout.slots →
      slot.Spans base q → other.Spans base q → slot = other := fun hslot hother hq hq' =>
    h.sound.tile.eq_of_spans hslot hother hq hq'
  have hspans : ∀ {slot : Slot} {field : Field} {inner : Layout}, slot ∈ layout.slots →
      slot.item = .field field → field.type = .record inner →
      (inner.Carries data (base + slot.position.offset) q ∨
        inner.Idle data (base + slot.position.offset) q) → slot.Spans base q := by
    intro slot field inner hslot hitem htype hinner
    have hbuilt := h.sound.built_of_record? hslot (Item.record?_of_field hitem htype)
    refine (spans_record_iff hitem htype).mpr ?_
    exact hinner.elim (hbuilt.carries_within _ _) (hbuilt.idle_within _ _)
  cases hcarries with
  | enable hslot hitem hq =>
    cases hidle with
    | reserved hother hitem' hq' =>
      cases hsame hslot hother hq hq'
      cases hitem.symm.trans hitem'
    | absent hother hitem' _ hq' =>
      cases hsame hslot hother hq hq'
      cases hitem.symm.trans hitem'
    | record hother hitem' htype' _ hinner' =>
      cases hsame hslot hother hq (hspans hother hitem' htype' (.inr hinner'))
      cases hitem.symm.trans hitem'
  | leaf hslot hitem htype hopens hq =>
    cases hidle with
    | reserved hother hitem' hq' =>
      cases hsame hslot hother hq hq'
      cases hitem.symm.trans hitem'
    | absent hother hitem' hopens' hq' =>
      cases hsame hslot hother hq hq'
      cases hopens.symm.trans hopens'
    | record hother hitem' htype' _ hinner' =>
      cases hsame hslot hother hq (hspans hother hitem' htype' (.inr hinner'))
      cases hitem.symm.trans hitem'
      cases htype.symm.trans htype'
  | record hslot hitem htype hopens hinner =>
    have hq := hspans hslot hitem htype (.inl hinner)
    cases hidle with
    | reserved hother hitem' hq' =>
      cases hsame hslot hother hq hq'
      cases hitem.symm.trans hitem'
    | absent hother hitem' hopens' hq' =>
      cases hsame hslot hother hq hq'
      cases hopens.symm.trans hopens'
    | record hother hitem' htype' _ hinner' =>
      cases hsame hslot hother hq (hspans hother hitem' htype' (.inr hinner'))
      cases hitem.symm.trans hitem'
      cases htype.symm.trans htype'
      exact ih _ hslot _ (Item.record?_of_field hitem htype) _ q hinner hinner'

/-! ## Reading what is carried -/

theorem Sound.opens_congr (h : layout.Sound)
    (hagree : ∀ q, layout.Carries data base q → Bits.bitAt data q = Bits.bitAt other q)
    {slot : Slot} (hslot : slot ∈ layout.slots) {field : Field}
    (hitem : slot.item = .field field) :
    Slot.opens layout.slots data base slot.link =
      Slot.opens layout.slots other base slot.link := by
  cases hlink : slot.link with
  | none => rfl
  | some index =>
    obtain ⟨gate, enable, hgate, henable⟩ := h.isEnable_of_link hslot hitem hlink
    have hwindow : Bits.window data (base + gate.position.offset) gate.bits =
        Bits.window other (base + gate.position.offset) gate.bits :=
      Bits.window_congr fun q hlow hhigh =>
        hagree q (.enable (List.mem_of_getElem? hgate) henable ⟨hlow, hhigh⟩)
    simp only [Slot.opens, hgate, hwindow]

/-- A slot is read alike from bytes that agree on what is carried, if this holds of the structure
inside. -/
theorem Sound.readCell_congr (hsound : layout.Sound) (hdata : base + layout.bits ≤ 8 * data.size)
    (hother : base + layout.bits ≤ 8 * other.size)
    (hagree : ∀ q, layout.Carries data base q → Bits.bitAt data q = Bits.bitAt other q)
    {slot : Slot} (hslot : slot ∈ layout.slots)
    (hinner : ∀ inner, slot.item.record? = some inner → ∀ position,
      position + inner.bits ≤ 8 * data.size → position + inner.bits ≤ 8 * other.size →
        (∀ q, inner.Carries data position q → Bits.bitAt data q = Bits.bitAt other q) →
          inner.readAt data position = inner.readAt other position) :
    slot.readCell layout.slots data base = slot.readCell layout.slots other base := by
  cases hitem : slot.item with
  | enable enable =>
    have hbits : slot.bits = enable.bits := by rw [Slot.bits, hitem, Item.bits]
    have hwindow : Bits.window data (base + slot.position.offset) enable.bits =
        Bits.window other (base + slot.position.offset) enable.bits :=
      Bits.window_congr fun q hlow hhigh =>
        hagree q (.enable hslot hitem ⟨hlow, hbits ▸ hhigh⟩)
    simp only [Slot.readCell, Slot.gateCell, hitem, hwindow]
  | reserved run => simp only [Slot.readCell, Slot.gateCell, hitem]
  | field field =>
    have hopens := hsound.opens_congr hagree hslot hitem
    have hend := hsound.fits_field hslot hitem
    have hbits : slot.bits = field.type.bits := by rw [Slot.bits, hitem, Item.bits, Field.bits]
    simp only [Slot.readCell, hitem, ← hopens]
    cases hopen : Slot.opens layout.slots data base slot.link with
    | false => rfl
    | true =>
      simp only [if_true]
      cases htype : field.type with
      | leaf type =>
        rw [htype] at hend hbits
        have hleaf : Bits.Agree data other (base + slot.position.offset) type.bits :=
          fun q hlow hhigh => hagree q (.leaf hslot hitem htype hopen ⟨hlow, hbits ▸ hhigh⟩)
        have hfits : slot.position.offset + type.bits ≤ layout.bits := hend
        simp only [FieldType.readAt]
        rw [type.readAt_congr field.name (by omega) (by omega) hleaf]
      | record inner =>
        rw [htype] at hend
        have hfits : slot.position.offset + inner.bits ≤ layout.bits := hend
        have hrecord := Item.record?_of_field hitem htype
        simp only [FieldType.readAt]
        rw [hinner inner hrecord _ (by omega) (by omega) fun q hcarries =>
          hagree q (.record hslot hitem htype hopen hcarries)]

/-- A structure is read alike from bytes that agree on what is carried. -/
theorem Built.readAt_congr_of_carries (h : layout.Built) (data other : Bytes) :
    ∀ base, base + layout.bits ≤ 8 * data.size → base + layout.bits ≤ 8 * other.size →
      (∀ q, layout.Carries data base q → Bits.bitAt data q = Bits.bitAt other q) →
        layout.readAt data base = layout.readAt other base := by
  refine h.induct ?_
  intro layout h ih base hdata hother hagree
  rw [h.sound.readAt_eq_mapM hdata, h.sound.readAt_eq_mapM hother]
  apply Fallible.mapM_congr
  intro slot hslot
  exact h.sound.readCell_congr hdata hother hagree hslot (ih slot hslot)

theorem Built.readAt_congr (h : layout.Built) (a b : Bytes) (base : Nat)
    (ha : base + layout.bits ≤ 8 * a.size) (hb : base + layout.bits ≤ 8 * b.size)
    (hsame : Bits.Agree a b base layout.bits) : layout.readAt a base = layout.readAt b base := by
  refine h.readAt_congr_of_carries a b base ha hb fun q hcarries => ?_
  obtain ⟨hlow, hhigh⟩ := h.carries_within base q hcarries
  exact hsame q hlow hhigh

/-- Unpacking has the same outcome for all bytes that are long enough and agree on the bits that
carry data: the same error, or the same container down to what is stored for absent fields.  A bit
carries data unless it is reserved, belongs to an absent field, or stands behind the structure, so
bytes that differ only in such places are unpacked alike. -/
theorem Built.unpack_eq_of_carries (h : layout.Built) (hdata : layout.bytes ≤ data.size) :
    (∀ other : Bytes, layout.bytes ≤ other.size →
      (∀ q, layout.Carries data 0 q → Bits.bitAt data q = Bits.bitAt other q) →
        Container.unpack layout data = Container.unpack layout other) ∧
      (∀ q, layout.Carries data 0 q ↔ q < layout.bits ∧ ¬ layout.Idle data 0 q) ∧
      ∀ other : Bytes, layout.bytes ≤ other.size →
        (∀ q, Bits.bitAt data q ≠ Bits.bitAt other q →
          layout.Idle data 0 q ∨ layout.bits ≤ q) →
          Container.unpack layout data = Container.unpack layout other := by
  have hcongr : ∀ other : Bytes, layout.bytes ≤ other.size →
      (∀ q, layout.Carries data 0 q → Bits.bitAt data q = Bits.bitAt other q) →
        Container.unpack layout data = Container.unpack layout other := by
    intro other hother hagree
    rw [Container.unpack, Container.unpack, if_neg (by omega), if_neg (by omega),
      h.readAt_congr_of_carries data other 0 (fits_of_bytes_le hdata) (fits_of_bytes_le hother)
        hagree]
  have hcarries : ∀ q, layout.Carries data 0 q ↔ q < layout.bits ∧ ¬ layout.Idle data 0 q := by
    intro q
    constructor
    · intro hcarries
      obtain ⟨_, hhigh⟩ := h.carries_within 0 q hcarries
      exact ⟨by omega, h.not_idle_of_carries 0 q hcarries⟩
    · rintro ⟨hhigh, hidle⟩
      exact (h.carries_or_idle 0 q (Nat.zero_le q) (by omega)).resolve_right hidle
  refine ⟨hcongr, hcarries, fun other hother hdiffers => hcongr other hother fun q hq => ?_⟩
  obtain ⟨hhigh, hidle⟩ := (hcarries q).mp hq
  by_contra hne
  rcases hdiffers q hne with hidle' | hbehind
  · exact hidle hidle'
  · omega

namespace Sample

/-- While the gate is closed, nothing else in the packet counts, the bits of the structure behind the
gate included. -/
theorem unpack_closed :
    fullLayout.Built ∧ fullLayout.bytes ≤ (#[0, 0] : Bytes).size ∧
      Container.unpack fullLayout #[0, 0] = Container.unpack fullLayout #[127, 255, 9] := by
  have hsize : fullLayout.bytes ≤ (#[0, 0] : Bytes).size := by decide
  obtain ⟨_, _, hdiffers⟩ := Built.unpack_eq_of_carries built_fullLayout hsize
  refine ⟨built_fullLayout, hsize, hdiffers #[127, 255, 9] (by decide) fun q hne => ?_⟩
  have hgate : q ≠ 0 := by
    rintro rfl
    exact hne (by decide)
  have hfirst : fullLayout.slots[1] ∈ fullLayout.slots := List.getElem_mem _
  have hpair : fullLayout.slots[2] ∈ fullLayout.slots := List.getElem_mem _
  have hlast : fullLayout.slots[3] ∈ fullLayout.slots := List.getElem_mem _
  rcases Nat.lt_or_ge q 15 with hinside | hbehind
  · refine .inl ?_
    rcases Nat.lt_or_ge q 3 with hbefore | hpast
    · exact .reserved hfirst rfl ⟨Nat.one_le_iff_ne_zero.mpr hgate, hbefore⟩
    rcases Nat.lt_or_ge q 14 with hwithin | hpast'
    · exact .absent hpair rfl (by decide) ⟨hpast, hwithin⟩
    · exact .reserved hlast rfl ⟨hpast', hinside⟩
  · exact .inr hbehind

end Sample

end Layout

end RadioPacket
