import RadioPacket.Layout.Linkage
import RadioPacket.Proofs.Layout.Placing

/-!
# What linking leaves alone

Resolving writes names into fields and enables, and relaxes modes.  It never changes a width, a
name or a type, nor the order of the items.  The slots of resolved items stand one behind the
other, and the link of a field leads to an enable.
-/

namespace RadioPacket

namespace Item

/-- An item without what linking may change. -/
def untied : Item → Item
  | .field f => .field { f with mode := .required, enabledBy := none }
  | .enable e => .enable { e with field := none }
  | .reserved r => .reserved r

theorem eq_field_of_field? {item : Item} {field : Field} (h : item.field? = some field) :
    item = .field field := by
  cases item with
  | field other =>
      cases h
      rfl
  | enable _ => cases h
  | reserved _ => cases h

/-- The structure that a field of the item holds. -/
def record? : Item → Option Layout
  | .field ⟨_, .record layout, _, _, _, _⟩ => some layout
  | _ => none

theorem record?_of_field {item : Item} {field : Field} {layout : Layout}
    (hitem : item = .field field) (htype : field.type = .record layout) :
    item.record? = some layout := by
  obtain ⟨name, type, mode, enabledBy, editable, bit⟩ := field
  cases hitem
  cases htype
  rfl

@[simp] theorem bits_untied (item : Item) : item.untied.bits = item.bits := by
  cases item <;> rfl

@[simp] theorem name?_untied (item : Item) : item.untied.name? = item.name? := by
  cases item <;> rfl

@[simp] theorem record?_untied (item : Item) : item.untied.record? = item.record? := by
  rcases item with ⟨name, type, mode, enabledBy, editable, bit⟩ | _ | _
  · cases type <;> rfl
  · rfl
  · rfl

theorem gateFits_untied (item : Item) : item.untied.GateFits ↔ item.GateFits := by
  cases item <;> rfl

theorem totalBits_map_untied (items : List Item) :
    totalBits (items.map untied) = totalBits items := by
  induction items with
  | nil => rfl
  | cons item items ih => simp [totalBits, ih]

theorem totalBits_congr {items others : List Item} (h : items.map untied = others.map untied) :
    totalBits items = totalBits others := by
  rw [← totalBits_map_untied, h, totalBits_map_untied]

theorem filterMap_name?_congr {items others : List Item}
    (h : items.map untied = others.map untied) :
    items.filterMap name? = others.filterMap name? := by
  have hnames (list : List Item) : list.filterMap name? = (list.map untied).filterMap name? := by
    simp [List.filterMap_map]
  rw [hnames, h, ← hnames]

/-- What does not depend on ties holds of all items when it holds of items that agree with them
but for their ties. -/
theorem forall_mem_of_untied {P : Item → Prop} {items others : List Item}
    (h : items.map untied = others.map untied) (hP : ∀ item, P item.untied ↔ P item)
    (hothers : ∀ item ∈ others, P item) : ∀ item ∈ items, P item := by
  intro item hitem
  have hmem : item.untied ∈ others.map untied := h ▸ List.mem_map_of_mem hitem
  obtain ⟨other, hother, heq⟩ := List.mem_map.mp hmem
  rw [← hP, ← heq, hP]
  exact hothers other hother

theorem index_eq_of_name? {items : List Item} (hnames : (items.filterMap name?).Nodup) {i j : Nat}
    {a b : Item} (ha : items[i]? = some a) (hb : items[j]? = some b) {name : String}
    (haname : a.name? = some name) (hbname : b.name? = some name) : i = j := by
  rw [List.Nodup, List.pairwise_filterMap, List.pairwise_iff_getElem] at hnames
  obtain ⟨hi, rfl⟩ := List.getElem?_eq_some_iff.mp ha
  obtain ⟨hj, rfl⟩ := List.getElem?_eq_some_iff.mp hb
  rcases Nat.lt_trichotomy i j with hlt | heq | hgt
  · exact absurd rfl (hnames i j hi hj hlt name haname name hbname)
  · exact heq
  · exact absurd rfl (hnames j i hj hi hgt name hbname name haname)

theorem eq_of_name? {items : List Item} (hnames : (items.filterMap name?).Nodup) {a b : Item}
    (ha : a ∈ items) (hb : b ∈ items) {name : String} (haname : a.name? = some name)
    (hbname : b.name? = some name) : a = b := by
  obtain ⟨i, hi⟩ := List.mem_iff_getElem?.mp ha
  obtain ⟨j, hj⟩ := List.mem_iff_getElem?.mp hb
  obtain rfl := index_eq_of_name? hnames hi hj haname hbname
  exact Option.some.inj (hi.symm.trans hj)

end Item

namespace Linkage

theorem setGatedField_untied (enable field : String) (items : List Item) :
    (setGatedField enable field items).map Item.untied = items.map Item.untied := by
  rw [setGatedField, List.map_map]
  apply List.map_congr_left
  intro item _
  cases item with
  | enable declared =>
      simp only [Function.comp]
      split
      · rfl
      · rfl
  | field _ => rfl
  | reserved _ => rfl

theorem setGate_untied (field enable : String) (items : List Item) :
    (setGate field enable items).map Item.untied = items.map Item.untied := by
  rw [setGate, List.map_map]
  apply List.map_congr_left
  intro item _
  cases item with
  | field declared =>
      simp only [Function.comp]
      split
      · rfl
      · rfl
  | enable _ => rfl
  | reserved _ => rfl

theorem claim_untied {layout : String} {items next : List Item} {field : Field}
    (h : claim layout items field = .ok next) :
    next.map Item.untied = items.map Item.untied := by
  unfold claim at h
  split at h
  · cases h
    rfl
  · split at h
    · cases h
    · split at h
      · cases h
        exact setGatedField_untied _ _ items
      · split at h
        · cases h
          rfl
        · cases h

theorem assign_untied {layout : String} {items next : List Item} {enable : Enable}
    (h : assign layout items enable = .ok next) :
    next.map Item.untied = items.map Item.untied := by
  unfold assign at h
  split at h
  · cases h
    rfl
  · split at h
    · cases h
    · split at h
      · cases h
        rfl
      · split at h
        · cases h
          exact setGate_untied _ _ items
        · cases h

/-- Resolving changes nothing but ties. -/
theorem resolve_untied {layout : String} {items resolved : List Item}
    (h : resolve layout items = .ok resolved) :
    resolved.map Item.untied = items.map Item.untied := by
  obtain ⟨claimed, hclaimed, hassigned⟩ := Fallible.bind_eq_ok.mp h
  have hfirst : claimed.map Item.untied = items.map Item.untied := by
    apply Fallible.foldlM_invariant (P := fun list => list.map Item.untied = items.map Item.untied)
      hclaimed rfl
    intro field _ old next hold hstep
    exact (claim_untied hstep).trans hold
  apply Fallible.foldlM_invariant (P := fun list => list.map Item.untied = items.map Item.untied)
    hassigned hfirst
  intro enable _ old next hold hstep
  exact (assign_untied hstep).trans hold

/-! ## Slots -/

@[simp] theorem map_item_slotsFrom (all : List Item) (position : Position) (items : List Item) :
    (slotsFrom all position items).map Slot.item = items := by
  induction items generalizing position with
  | nil => rfl
  | cons item items ih => simp [slotsFrom, ih]

@[simp] theorem map_item_slots (items : List Item) : (slots items).map Slot.item = items :=
  map_item_slotsFrom items .start items

theorem link_of_mem_slotsFrom {all items : List Item} {position : Position} {slot : Slot}
    (h : slot ∈ slotsFrom all position items) : slot.link = partner? all slot.item := by
  induction items generalizing position with
  | nil => cases h
  | cons item items ih =>
      rcases List.mem_cons.mp h with rfl | hrest
      · rfl
      · exact ih hrest

theorem isEnable_of_partner? {items : List Item} {field : Field} {index : Nat}
    (h : partner? items (.field field) = some index) :
    ∃ gate, items[index]? = some (.enable gate) := by
  obtain ⟨name, _, hindex⟩ := Option.bind_eq_some_iff.mp h
  obtain ⟨hlt, hnamed, _⟩ := List.findIdx?_eq_some_iff_getElem.mp hindex
  cases hitem : items[index] with
  | field _ => simp [hitem, Item.isEnableNamed] at hnamed
  | enable gate => exact ⟨gate, by rw [List.getElem?_eq_getElem hlt, hitem]⟩
  | reserved _ => simp [hitem, Item.isEnableNamed] at hnamed

end Linkage

namespace Slot

/-- The slots stand one behind the other, from bit `start` on. -/
def Tile (start : Nat) : List Slot → Prop
  | [] => True
  | slot :: rest => slot.position.offset = start ∧ Tile (start + slot.bits) rest

end Slot

theorem Linkage.tile_slotsFrom (all : List Item) (position : Position) (items : List Item) :
    Slot.Tile position.offset (slotsFrom all position items) := by
  induction items generalizing position with
  | nil => trivial
  | cons item items ih => exact ⟨rfl, ih (position + item.bits)⟩

end RadioPacket
