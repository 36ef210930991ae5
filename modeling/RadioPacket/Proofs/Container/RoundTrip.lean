import RadioPacket.Proofs.Container.ReadBack

/-!
# The round trip

Packing a container puts its stream into the bytes, and unpacking reads it back.  Neither the modes
nor what absent fields store make the trip, and equality of containers asks for neither, so the
containers are equal as soon as the fixed-point values are.
-/

namespace RadioPacket

/-- A present leaf field of the type shows the value, at any depth. -/
inductive Container.Shows : Container → LeafType → Scalar → Prop where
  | leaf {c : Container} {index : Nat} {slot : Slot} {field : Field} {type : LeafType}
      {value : Scalar} :
      c.layout.slot? index = some slot → slot.item = .field field → field.type = .leaf type →
      c.get? index = some (.scalar value) → Shows c type value
  | nested {c inner : Container} {index : Nat} {type : LeafType} {value : Scalar} :
      c.get? index = some (.record inner) → Shows inner type value → Shows c type value

/-! ## What a field shows -/

namespace Container

variable {c : Container} {index : Nat} {slot : Slot} {cell : Cell} {field : Field}

theorem isOpen_of_get?_eq_none (hslot : c.layout.slots[index]? = some slot)
    (hcell : c.cells[index]? = some cell) (hfield : slot.item = .field field)
    (h : c.get? index = none) : Cell.isOpen c.cells slot.link = false := by
  rw [get?_field hslot hcell hfield] at h
  cases hopen : Cell.isOpen c.cells slot.link with
  | false => rfl
  | true => simp [hopen] at h

theorem isOpen_of_get?_eq_some (hslot : c.layout.slots[index]? = some slot)
    (hcell : c.cells[index]? = some cell) (hfield : slot.item = .field field) {value : Value}
    (h : c.get? index = some value) :
    Cell.isOpen c.cells slot.link = true ∧ field.type.valueOf cell = value := by
  rw [get?_field hslot hcell hfield] at h
  cases hopen : Cell.isOpen c.cells slot.link with
  | false => simp [hopen] at h
  | true => simpa [hopen] using h

end Container

theorem Slot.Holds.eq_leaf {slot : Slot} {cell : Cell} (h : slot.Holds cell) {field : Field}
    (hfield : slot.item = .field field) {type : LeafType} (htype : field.type = .leaf type)
    {value : Scalar} (hvalue : field.type.valueOf cell = .scalar value) :
    ∃ mode, cell = .leaf value mode ∧ type.Normal value := by
  obtain ⟨stored, mode, rfl, hnormal⟩ := h.exists_leaf hfield htype
  rw [htype] at hvalue
  cases hvalue
  exact ⟨mode, rfl, hnormal⟩

theorem Slot.Holds.eq_record {slot : Slot} {cell : Cell} (h : slot.Holds cell) {field : Field}
    (hfield : slot.item = .field field) {layout : Layout} (htype : field.type = .record layout)
    {inner : Container} (hvalue : field.type.valueOf cell = .record inner) :
    ∃ cells mode, cell = .record cells mode ∧ inner = ⟨layout, cells⟩ ∧ layout.Holds cells := by
  cases h with
  | enable hitem => cases hfield.symm.trans hitem
  | leaf hitem hleaf _ =>
      cases hfield.symm.trans hitem
      cases htype.symm.trans hleaf
  | @record _ _ other cells mode hitem hrecord hcells =>
      cases hfield.symm.trans hitem
      cases htype.symm.trans hrecord
      rw [htype] at hvalue
      cases hvalue
      exact ⟨cells, mode, rfl, rfl, hcells⟩
  | reserved hitem => cases hfield.symm.trans hitem

/-! ## Equality of what comes back -/

/-- Cells of a field show the same value. -/
def FieldType.sameCell : FieldType → (x y : Cell) → Bool
  | .leaf _, .leaf x _, .leaf y _ => x.same y
  | .record layout, .record x _, .record y _ => layout.sameCells x y
  | _, _, _ => false

namespace Slot

/-- Cells of one slot show the same; `allA` and `allB` hold all cells. -/
def sameCell (allA allB : List Cell) (slot : Slot) (x y : Cell) : Bool :=
  match slot.item with
  | .field field =>
      Cell.isOpen allA slot.link == Cell.isOpen allB slot.link &&
        (!Cell.isOpen allA slot.link || field.type.sameCell x y)
  | .enable _ => x.isSet == y.isSet
  | .reserved _ => true

theorem sameAll_cons {slot : Slot} {slots : List Slot} {x y : Cell} {a b allA allB : List Cell}
    (hx : slot.Holds x) (hy : slot.Holds y) :
    sameAll (slot :: slots) (x :: a) (y :: b) allA allB =
      (slot.sameCell allA allB x y && sameAll slots a b allA allB) := by
  obtain ⟨item, position, link⟩ := slot
  cases hx with
  | enable hitem =>
      cases hitem
      cases hy with
      | enable _ => rfl
      | leaf hitem _ _ => cases hitem
      | record hitem _ _ => cases hitem
      | reserved hitem => cases hitem
  | @leaf _ field _ _ _ hitem htype _ =>
      cases hitem
      obtain ⟨name, type, mode, enabledBy, editable, bit⟩ := field
      cases htype
      cases hy with
      | enable hitem => cases hitem
      | leaf _ _ _ => rfl
      | record hitem htype _ =>
          cases hitem
          cases htype
      | reserved hitem => cases hitem
  | @record _ field _ _ _ hitem htype _ =>
      cases hitem
      obtain ⟨name, type, mode, enabledBy, editable, bit⟩ := field
      cases htype
      cases hy with
      | enable hitem => cases hitem
      | leaf hitem htype _ =>
          cases hitem
          cases htype
      | record _ _ _ => rfl
      | reserved hitem => cases hitem
  | reserved hitem =>
      cases hitem
      cases hy with
      | enable hitem => cases hitem
      | leaf hitem _ _ => cases hitem
      | record hitem _ _ => cases hitem
      | reserved _ => rfl

theorem sameAll_of_sameCell {slots : List Slot} {a b allA allB : List Cell}
    (ha : List.Forall₂ Holds slots a) (hb : List.Forall₂ Holds slots b)
    (h : ∀ (index : Nat) (slot : Slot) (x y : Cell), slots[index]? = some slot →
      a[index]? = some x → b[index]? = some y → slot.sameCell allA allB x y = true) :
    sameAll slots a b allA allB = true := by
  induction slots generalizing a b with
  | nil =>
      cases ha
      cases hb
      rfl
  | cons slot slots ih =>
      cases ha with
      | cons hx ha =>
          cases hb with
          | cons hy hb =>
              rw [sameAll_cons hx hy, h 0 slot _ _ rfl rfl rfl, Bool.true_and]
              exact ih ha hb fun index => h (index + 1)

end Slot

/-- The value of a leaf type equals what its pattern stands for. -/
def LeafType.Survives (type : LeafType) (value : Scalar) : Prop :=
  ∃ pattern read, type.encode value = .ok pattern ∧ type.decode pattern = .ok read ∧
    read.same value = true

/-- What reads back in a slot is the same, if the present fixed-point values survive and if the
structure inside is the same. -/
theorem Container.ItemReadsBack.sameCell {c back : Container} {index : Nat}
    (h : c.ItemReadsBack back index) (hlayout : back.layout = c.layout) {slot : Slot}
    {cell cellBack : Cell} (hslot : c.layout.slots[index]? = some slot)
    (hcell : c.cells[index]? = some cell) (hback : back.cells[index]? = some cellBack)
    (hholds : slot.Holds cell) (hholdsBack : slot.Holds cellBack)
    (hsurvives : ∀ type value, c.Shows type value → type.IsFixedPoint → type.Survives value)
    (hinner : ∀ inner, slot.item.record? = some inner → ∀ cells back, inner.Holds cells →
      inner.Holds back → ReadsBack ⟨inner, cells⟩ ⟨inner, back⟩ →
      (∀ type value, Shows ⟨inner, cells⟩ type value → type.IsFixedPoint →
        type.Survives value) → inner.sameCells back cells = true) :
    slot.sameCell back.cells c.cells cellBack cell = true := by
  have hslotBack : back.layout.slots[index]? = some slot := by rw [hlayout, hslot]
  cases h with
  | reserved hfound hitem =>
      cases hslot.symm.trans hfound
      simp only [Slot.sameCell, hitem]
  | enable hfound hitem hget =>
      cases hslot.symm.trans hfound
      rw [get?_enable hslotBack hback hitem, get?_enable hslot hcell hitem] at hget
      simp only [Option.some.injEq, Value.scalar.injEq, Scalar.bool.injEq] at hget
      simp only [Slot.sameCell, hitem, hget, beq_self_eq_true]
  | absent hfound hitem hget hgetBack =>
      cases hslot.symm.trans hfound
      have hopen := isOpen_of_get?_eq_none hslot hcell hitem hget
      have hopenBack := isOpen_of_get?_eq_none hslotBack hback hitem hgetBack
      simp only [Slot.sameCell, hitem, hopen, hopenBack]
      rfl
  | @identical _ _ _ _ field type value hfound hitem htype hfixed hget hgetBack =>
      cases hslot.symm.trans hfound
      obtain ⟨hopen, hvalue⟩ := isOpen_of_get?_eq_some hslot hcell hitem hget
      obtain ⟨hopenBack, hvalueBack⟩ := isOpen_of_get?_eq_some hslotBack hback hitem hgetBack
      obtain ⟨mode, rfl, hnormal⟩ := hholds.eq_leaf hitem htype hvalue
      obtain ⟨modeBack, rfl, _⟩ := hholdsBack.eq_leaf hitem htype hvalueBack
      have hsame := LeafType.same_self_of_normal hnormal hfixed
      simp [Slot.sameCell, hitem, hopen, hopenBack, htype, FieldType.sameCell, hsame]
  | @fixedPoint _ _ _ _ field type value read pattern hfound hitem htype hfixed hencode hdecode hget
      hgetBack =>
      cases hslot.symm.trans hfound
      obtain ⟨hopen, hvalue⟩ := isOpen_of_get?_eq_some hslot hcell hitem hget
      obtain ⟨hopenBack, hvalueBack⟩ := isOpen_of_get?_eq_some hslotBack hback hitem hgetBack
      obtain ⟨mode, rfl, hnormal⟩ := hholds.eq_leaf hitem htype hvalue
      obtain ⟨modeBack, rfl, _⟩ := hholdsBack.eq_leaf hitem htype hvalueBack
      obtain ⟨other, result, hencoded, hdecoded, hsame⟩ :=
        hsurvives type value (.leaf hfound hitem htype hget) hfixed
      cases hencode.symm.trans hencoded
      cases hdecode.symm.trans hdecoded
      simp [Slot.sameCell, hitem, hopen, hopenBack, htype, FieldType.sameCell, hsame]
  | @record _ _ inner innerBack _ _ field hfound hitem htype hget hgetBack hreads =>
      cases hslot.symm.trans hfound
      obtain ⟨hopen, hvalue⟩ := isOpen_of_get?_eq_some hslot hcell hitem hget
      obtain ⟨hopenBack, hvalueBack⟩ := isOpen_of_get?_eq_some hslotBack hback hitem hgetBack
      have hrecord : slot.item.record? = some inner.layout := Item.record?_of_field hitem htype
      obtain ⟨cells, mode, rfl, hinnerEq, hcells⟩ := hholds.eq_record hitem htype hvalue
      obtain ⟨cellsBack, modeBack, rfl, rfl, hcellsBack⟩ :=
        hholdsBack.eq_record hitem htype hvalueBack
      obtain ⟨layout, stored⟩ := inner
      cases hinnerEq
      have hsame := hinner layout hrecord cells cellsBack hcells hcellsBack hreads
        fun type value hshows => hsurvives type value (.nested hget hshows)
      simp [Slot.sameCell, hitem, hopen, hopenBack, htype, FieldType.sameCell, hsame]

/-- What reads back is the same, if every present fixed-point value survives. -/
theorem Layout.Built.sameCells_of_readsBack {layout : Layout} (h : layout.Built) :
    ∀ cells back, layout.Holds cells → layout.Holds back →
      Container.ReadsBack ⟨layout, cells⟩ ⟨layout, back⟩ →
      (∀ type value, Container.Shows ⟨layout, cells⟩ type value → type.IsFixedPoint →
        type.Survives value) → layout.sameCells back cells = true := by
  refine h.induct ?_
  intro layout h ih cells back hcells hback hreads hsurvives
  have hall : Slot.sameAll layout.slots back cells back cells = true := by
    apply Slot.sameAll_of_sameCell hback hcells
    intro index slot x y hslot hx hy
    cases hreads with
    | items hlayout hitems =>
        have hlt : index < layout.slots.length := (List.getElem?_eq_some_iff.mp hslot).1
        exact (hitems index hlt).sameCell hlayout hslot hy hx (forall₂_at hcells hslot hy)
          (forall₂_at hback hslot hx) hsurvives (ih slot (List.mem_of_getElem? hslot))
  obtain ⟨name, slots, bits, warnings, dynamicSize⟩ := layout
  exact hall

theorem Container.ReadsBack.same {c back : Container} (h : c.ReadsBack back) (hfits : c.Fits)
    (hback : back.Fits)
    (hsurvives : ∀ type value, c.Shows type value → type.IsFixedPoint → type.Survives value) :
    back.same c = true := by
  obtain ⟨layout, cells⟩ := c
  obtain ⟨layoutBack, cellsBack⟩ := back
  have hlayout : layoutBack = layout := by
    cases h with
    | items hlayout _ => exact hlayout
  subst hlayout
  have hsame :=
    hfits.built.sameCells_of_readsBack cells cellsBack hfits.holds hback.holds h hsurvives
  simp [Container.same, hsame]

namespace Layout.Sample

end Layout.Sample

end RadioPacket
