import RadioPacket.Proofs.Layout.Settled
import RadioPacket.Proofs.Layout.WellPlaced

/-!
# Links are a matching

The links of a layout join the pairs of its items and nothing else.  Each slot is linked to at most
one other slot, which is linked back to it, and the two name each other.
-/

namespace RadioPacket

namespace Linkage

variable {items : List Item}

/-- Two items that are a pair, in either order. -/
def Couple (items : List Item) (a b : Item) : Prop :=
  ∃ enable field, Pairs items enable field ∧
    (a = .enable enable ∧ b = .field field ∨ a = .field field ∧ b = .enable enable)

theorem Couple.symm {a b : Item} (h : Couple items a b) : Couple items b a := by
  obtain ⟨enable, field, hpair, ⟨ha, hb⟩ | ⟨ha, hb⟩⟩ := h
  · exact ⟨enable, field, hpair, .inr ⟨hb, ha⟩⟩
  · exact ⟨enable, field, hpair, .inl ⟨hb, ha⟩⟩

theorem couple_field {field : Field} {item : Item} :
    Couple items (.field field) item ↔
      ∃ enable, item = .enable enable ∧ Pairs items enable field := by
  constructor
  · rintro ⟨enable, _, hpair, ⟨ha, _⟩ | ⟨ha, hb⟩⟩
    · cases ha
    · cases ha
      exact ⟨enable, hb, hpair⟩
  · rintro ⟨enable, rfl, hpair⟩
    exact ⟨enable, field, hpair, .inr ⟨rfl, rfl⟩⟩

theorem couple_enable {enable : Enable} {item : Item} :
    Couple items (.enable enable) item ↔
      ∃ field, item = .field field ∧ Pairs items enable field := by
  constructor
  · rintro ⟨_, field, hpair, ⟨ha, hb⟩ | ⟨ha, _⟩⟩
    · cases ha
      exact ⟨field, hb, hpair⟩
    · cases ha
  · rintro ⟨field, rfl, hpair⟩
    exact ⟨enable, field, hpair, .inl ⟨rfl, rfl⟩⟩

theorem findIdx?_eq_some_of_unique {p : Item → Bool}
    (h : ∀ (i j : Nat) (a b : Item), items[i]? = some a → items[j]? = some b → p a → p b → i = j)
    {i : Nat} : items.findIdx? p = some i ↔ ∃ a, items[i]? = some a ∧ p a := by
  rw [List.findIdx?_eq_some_iff_getElem]
  constructor
  · rintro ⟨hi, hp, _⟩
    exact ⟨items[i], List.getElem?_eq_getElem hi, hp⟩
  · rintro ⟨a, ha, hp⟩
    obtain ⟨hi, rfl⟩ := List.getElem?_eq_some_iff.mp ha
    refine ⟨hi, hp, ?_⟩
    intro j hj hother
    have heq := h j i _ _ (List.getElem?_eq_getElem (Nat.lt_trans hj hi)) ha hother hp
    omega

theorem isEnableNamed_eq_true {name : String} {item : Item} :
    item.isEnableNamed name = true ↔ ∃ enable, item = .enable enable ∧ enable.name = name := by
  cases item with
  | field _ => simp [Item.isEnableNamed]
  | enable enable => simp [Item.isEnableNamed]
  | reserved _ => simp [Item.isEnableNamed]

theorem isGatedBy_eq_true {enable : String} {item : Item} :
    item.isGatedBy enable = true ↔
      ∃ field, item = .field field ∧ field.enabledBy = some enable := by
  cases item with
  | field field => simp [Item.isGatedBy]
  | enable _ => simp [Item.isGatedBy]
  | reserved _ => simp [Item.isGatedBy]

section Partner

variable (hnames : (items.filterMap Item.name?).Nodup) (h : Settled items)

include hnames h

theorem Settled.partner?_field {field : Field} (hfield : Item.field field ∈ items) {j : Nat} :
    partner? items (.field field) = some j ↔
      ∃ enable, items[j]? = some (.enable enable) ∧ Pairs items enable field := by
  have hunique (name : String) (i j : Nat) (a b : Item) (ha : items[i]? = some a)
      (hb : items[j]? = some b) (hanamed : a.isEnableNamed name) (hbnamed : b.isEnableNamed name) :
      i = j := by
    obtain ⟨d, rfl, hd⟩ := isEnableNamed_eq_true.mp hanamed
    obtain ⟨e, rfl, he⟩ := isEnableNamed_eq_true.mp hbnamed
    exact Item.index_eq_of_name? hnames ha hb (congrArg some hd) (congrArg some he)
  rw [partner?, Option.bind_eq_some_iff]
  constructor
  · rintro ⟨name, hgate, hfound⟩
    obtain ⟨item, hitem, hnamed⟩ := (findIdx?_eq_some_of_unique (hunique name)).mp hfound
    obtain ⟨enable, rfl, rfl⟩ := isEnableNamed_eq_true.mp hnamed
    exact ⟨enable, hitem, List.mem_of_getElem? hitem, hfield, .inl hgate⟩
  · rintro ⟨enable, henable, hpair⟩
    refine ⟨enable.name, (h.agree hpair).1, ?_⟩
    exact (findIdx?_eq_some_of_unique (hunique enable.name)).mpr
      ⟨_, henable, isEnableNamed_eq_true.mpr ⟨enable, rfl, rfl⟩⟩

theorem Settled.partner?_enable {enable : Enable} (henable : Item.enable enable ∈ items) {j : Nat} :
    partner? items (.enable enable) = some j ↔
      ∃ field, items[j]? = some (.field field) ∧ Pairs items enable field := by
  have hpairs {i : Nat} {field : Field} (hfield : items[i]? = some (.field field))
      (hgate : field.enabledBy = some enable.name) : Pairs items enable field :=
    ⟨henable, List.mem_of_getElem? hfield, .inl hgate⟩
  have hunique (i j : Nat) (a b : Item) (ha : items[i]? = some a) (hb : items[j]? = some b)
      (hagated : a.isGatedBy enable.name) (hbgated : b.isGatedBy enable.name) : i = j := by
    -- The enable names both fields, so they have one name.
    obtain ⟨f, rfl, hf⟩ := isGatedBy_eq_true.mp hagated
    obtain ⟨g, rfl, hg⟩ := isGatedBy_eq_true.mp hbgated
    have hfname := (h.agree (hpairs ha hf)).2
    have hgname := (h.agree (hpairs hb hg)).2
    exact Item.index_eq_of_name? hnames ha hb rfl (hgname.symm.trans hfname)
  rw [partner?, findIdx?_eq_some_of_unique hunique]
  constructor
  · rintro ⟨item, hitem, hgated⟩
    obtain ⟨field, rfl, hgate⟩ := isGatedBy_eq_true.mp hgated
    exact ⟨field, hitem, hpairs hitem hgate⟩
  · rintro ⟨field, hfield, hpair⟩
    exact ⟨_, hfield, isGatedBy_eq_true.mpr ⟨field, rfl, (h.agree hpair).1⟩⟩

/-- An item of settled items is linked to the other side of its pair. -/
theorem Settled.partner?_eq_some {item : Item} (hitem : item ∈ items) {j : Nat} :
    partner? items item = some j ↔ ∃ other, items[j]? = some other ∧ Couple items item other := by
  cases item with
  | reserved run =>
      constructor
      · intro hlink
        cases hlink
      · rintro ⟨_, _, _, _, _, ⟨hrun, _⟩ | ⟨hrun, _⟩⟩
        · cases hrun
        · cases hrun
  | field field =>
      rw [h.partner?_field hnames hitem]
      constructor
      · rintro ⟨enable, henable, hpair⟩
        exact ⟨_, henable, couple_field.mpr ⟨enable, rfl, hpair⟩⟩
      · rintro ⟨other, hother, hcouple⟩
        obtain ⟨enable, rfl, hpair⟩ := couple_field.mp hcouple
        exact ⟨enable, hother, hpair⟩
  | enable enable =>
      rw [h.partner?_enable hnames hitem]
      constructor
      · rintro ⟨field, hfield, hpair⟩
        exact ⟨_, hfield, couple_enable.mpr ⟨field, rfl, hpair⟩⟩
      · rintro ⟨other, hother, hcouple⟩
        obtain ⟨field, rfl, hpair⟩ := couple_enable.mp hcouple
        exact ⟨field, hother, hpair⟩

end Partner

end Linkage

namespace Layout

/-- The links of a layout pair fields with enables that name each other. -/
structure Matched (layout : Layout) : Prop where
  symmetric : ∀ (i j : Nat) (a b : Slot), layout.slots[i]? = some a → layout.slots[j]? = some b →
    (a.link = some j ↔ b.link = some i)
  couples : ∀ (i j : Nat) (a : Slot), layout.slots[i]? = some a → a.link = some j →
    ∃ (b : Slot) (enable : Enable) (field : Field), layout.slots[j]? = some b ∧
      (a.item = .enable enable ∧ b.item = .field field ∨
        a.item = .field field ∧ b.item = .enable enable) ∧
      field.enabledBy = some enable.name ∧ enable.field = some field.name
  /-- A field that names an enable is linked. -/
  field_linked : ∀ a ∈ layout.slots, ∀ field, a.item = .field field →
    field.enabledBy ≠ none → a.link ≠ none
  /-- An enable that is not linked names something that is no field of the structure. -/
  enable_outward : ∀ a ∈ layout.slots, ∀ enable, a.item = .enable enable → a.link = none →
    ∃ name, enable.field = some name ∧
      ∀ b ∈ layout.slots, ∀ field, b.item = .field field → field.name ≠ name

/-- A slot of the first name is linked to a slot of the second name. -/
def Links (layout : Layout) (a b : String) : Prop :=
  ∃ x ∈ layout.slots, ∃ (j : Nat) (y : Slot), x.link = some j ∧ layout.slots[j]? = some y ∧
    x.name? = some a ∧ y.name? = some b

/-- What linking makes of a structure: settled items with distinct names, and links that follow
from them. -/
structure Linked (layout : Layout) : Prop where
  names : (layout.items.filterMap Item.name?).Nodup
  settled : Linkage.Settled layout.items
  links : ∀ slot ∈ layout.slots, slot.link = Linkage.partner? layout.items slot.item

variable {layout : Layout}

theorem exists_slot_of_getElem?_items {i : Nat} {item : Item} (h : layout.items[i]? = some item) :
    ∃ slot, layout.slots[i]? = some slot ∧ slot.item = item := by
  rw [items, List.getElem?_map, Option.map_eq_some_iff] at h
  exact h

namespace Linked

variable (h : layout.Linked)

include h

theorem link_eq_some {slot : Slot} (hslot : slot ∈ layout.slots) {j : Nat} :
    slot.link = some j ↔
      ∃ other, layout.slots[j]? = some other ∧
        Linkage.Couple layout.items slot.item other.item := by
  rw [h.links slot hslot,
    h.settled.partner?_eq_some h.names (List.mem_map_of_mem hslot)]
  constructor
  · rintro ⟨item, hitem, hcouple⟩
    obtain ⟨other, hother, rfl⟩ := exists_slot_of_getElem?_items hitem
    exact ⟨other, hother, hcouple⟩
  · rintro ⟨other, hother, hcouple⟩
    exact ⟨_, getElem?_items hother, hcouple⟩

theorem matched : layout.Matched := by
  constructor
  · intro i j a b ha hb
    have hlinked {i j : Nat} {a b : Slot} (ha : layout.slots[i]? = some a)
        (hb : layout.slots[j]? = some b) (hlink : a.link = some j) : b.link = some i := by
      obtain ⟨other, hother, hcouple⟩ := (h.link_eq_some (List.mem_of_getElem? ha)).mp hlink
      obtain rfl := Option.some.inj (hb.symm.trans hother)
      exact (h.link_eq_some (List.mem_of_getElem? hb)).mpr ⟨a, ha, hcouple.symm⟩
    exact ⟨hlinked ha hb, hlinked hb ha⟩
  · intro i j a ha hlink
    obtain ⟨b, hb, enable, field, hpair, hsides⟩ :=
      (h.link_eq_some (List.mem_of_getElem? ha)).mp hlink
    exact ⟨b, enable, field, hb, hsides, h.settled.agree hpair⟩
  · intro a ha field hfield hgated hlink
    obtain ⟨name, hname⟩ := Option.ne_none_iff_exists'.mp hgated
    have hmem : Item.field field ∈ layout.items := hfield ▸ List.mem_map_of_mem ha
    obtain ⟨enable, hpair, _⟩ := h.settled.known hmem hname
    obtain ⟨j, hj⟩ := List.mem_iff_getElem?.mp hpair.1
    obtain ⟨other, hother, henable⟩ := exists_slot_of_getElem?_items hj
    have hlinked : a.link = some j := by
      rw [h.link_eq_some ha, hfield]
      exact ⟨other, hother, Linkage.couple_field.mpr ⟨enable, henable, hpair⟩⟩
    cases hlink.symm.trans hlinked
  · intro a ha enable henable hlink
    have hmem : Item.enable enable ∈ layout.items := henable ▸ List.mem_map_of_mem ha
    obtain ⟨name, hname⟩ := h.settled.aimed hmem
    refine ⟨name, hname, ?_⟩
    rintro b hb field hfield rfl
    obtain ⟨j, hj⟩ := List.mem_iff_getElem?.mp hb
    have hpair : Linkage.Pairs layout.items enable field :=
      ⟨hmem, hfield ▸ List.mem_map_of_mem hb, .inr hname⟩
    have hlinked : a.link = some j := by
      rw [h.link_eq_some ha, henable]
      exact ⟨b, hj, Linkage.couple_enable.mpr ⟨field, hfield, hpair⟩⟩
    cases hlink.symm.trans hlinked

/-- The names that are linked are those of the pairs. -/
theorem links_iff {a b : String} :
    layout.Links a b ↔
      ∃ x y, Linkage.Couple layout.items x y ∧ x.name? = some a ∧ y.name? = some b := by
  constructor
  · rintro ⟨x, hx, j, y, hlink, hy, hxname, hyname⟩
    obtain ⟨other, hother, hcouple⟩ := (h.link_eq_some hx).mp hlink
    obtain rfl := Option.some.inj (hy.symm.trans hother)
    exact ⟨x.item, y.item, hcouple, hxname, hyname⟩
  · rintro ⟨x, y, hcouple, hxname, hyname⟩
    have hmem {x y : Item} (hcouple : Linkage.Couple layout.items x y) : x ∈ layout.items := by
      obtain ⟨enable, field, hpair, ⟨rfl, _⟩ | ⟨rfl, _⟩⟩ := hcouple
      · exact hpair.1
      · exact hpair.2.1
    obtain ⟨first, hfirst, rfl⟩ := List.mem_map.mp (hmem hcouple)
    obtain ⟨j, hj⟩ := List.mem_iff_getElem?.mp (hmem hcouple.symm)
    obtain ⟨second, hsecond, rfl⟩ := exists_slot_of_getElem?_items hj
    exact ⟨first, hfirst, j, second, (h.link_eq_some hfirst).mpr ⟨second, hsecond, hcouple⟩,
      hsecond, hxname, hyname⟩

end Linked

end Layout

namespace Blueprint

variable {name : String} {items : List Item} {dynamicSize : Bool} {layout : Layout}

/-- The layout of resolved items. -/
def laidOut (name : String) (resolved : List Item) (dynamicSize : Bool) : Layout where
  name
  slots := Linkage.slots resolved
  bits := Item.totalBits resolved
  warnings := warnings name (Linkage.slots resolved) (Item.totalBits resolved)
  dynamicSize

@[simp] theorem items_laidOut (name : String) (resolved : List Item) (dynamicSize : Bool) :
    (laidOut name resolved dynamicSize).items = resolved :=
  Linkage.map_item_slots resolved

/-- Items can be frozen when they have bits and distinct names and can be linked, and they are then
tied and laid out. -/
theorem freeze_eq_ok :
    freeze name items dynamicSize = .ok layout ↔
      ((∀ item ∈ items, 0 < item.bits) ∧ (items.filterMap Item.name?).Nodup) ∧
        Linkage.Linkable items ∧
          layout = laidOut name (items.map (Linkage.tie items)) dynamicSize := by
  have hbits : Item.totalBits (items.map (Linkage.tie items)) = Item.totalBits items :=
    Item.totalBits_congr (Linkage.map_untied_tie items)
  have hcheck : checkItems name [] items = .ok () ↔
      (∀ item ∈ items, 0 < item.bits) ∧ (items.filterMap Item.name?).Nodup := by
    rw [checkItems_eq_ok]
    simp
  rw [freeze, Fallible.bind_eq_ok]
  constructor
  · rintro ⟨_, hchecked, h⟩
    have hlegal := hcheck.mp hchecked
    obtain ⟨resolved, hresolved, hlayout⟩ := Fallible.bind_eq_ok.mp h
    obtain ⟨hlinkable, rfl⟩ := (Linkage.resolve_eq_ok hlegal.2).mp hresolved
    cases hlayout
    refine ⟨hlegal, hlinkable, ?_⟩
    rw [laidOut, hbits]
  · rintro ⟨hlegal, hlinkable, rfl⟩
    have hresolved : Linkage.resolve name items = .ok (items.map (Linkage.tie items)) :=
      (Linkage.resolve_eq_ok hlegal.2).mpr ⟨hlinkable, rfl⟩
    refine ⟨(), hcheck.mpr hlegal, Fallible.bind_eq_ok.mpr ⟨_, hresolved, ?_⟩⟩
    rw [laidOut, hbits]
    rfl

theorem linked_of_freeze (h : freeze name items dynamicSize = .ok layout) : layout.Linked := by
  obtain ⟨⟨_, hnames⟩, hlinkable, rfl⟩ := freeze_eq_ok.mp h
  have hcoherent := hlinkable.coherent hnames
  have htied : ((items.map (Linkage.tie items)).filterMap Item.name?).Nodup := by
    rw [Item.filterMap_name?_congr (Linkage.map_untied_tie items)]
    exact hnames
  constructor
  · rw [items_laidOut]
    exact htied
  · rw [items_laidOut]
    exact hcoherent.settled_tie hnames
  · intro slot hslot
    rw [items_laidOut]
    exact Linkage.link_of_mem_slotsFrom hslot

theorem linked_of_build {blueprint : Blueprint} (h : blueprint.build = .ok layout) :
    layout.Linked := by
  obtain ⟨⟨_, _, hfreeze⟩, _⟩ := build_iff.mp h
  exact linked_of_freeze hfreeze

/-- Items in another order freeze to a layout with the same pairs. -/
theorem freeze_perm {others : List Item} (hperm : items.Perm others)
    (h : freeze name items dynamicSize = .ok layout) :
    ∃ other, freeze name others dynamicSize = .ok other ∧
      ∀ a b, other.Links a b ↔ layout.Links a b := by
  obtain ⟨⟨hwide, hnames⟩, hlinkable, rfl⟩ := freeze_eq_ok.mp h
  have hmem : ∀ item, item ∈ items ↔ item ∈ others := fun item => hperm.mem_iff
  have hothernames : (others.filterMap Item.name?).Nodup :=
    (hperm.filterMap Item.name?).nodup_iff.mp hnames
  have hcoherent := hlinkable.coherent hnames
  have hother : freeze name others dynamicSize =
      .ok (laidOut name (others.map (Linkage.tie others)) dynamicSize) := by
    have hotherwide : ∀ item ∈ others, 0 < item.bits := fun item hitem =>
      hwide item ((hmem item).mpr hitem)
    exact freeze_eq_ok.mpr ⟨⟨hotherwide, hothernames⟩, (hcoherent.congr hmem).linkable, rfl⟩
  refine ⟨_, hother, ?_⟩
  -- The tied items are the same up to their order, and pairs are about membership only.
  have htied : ∀ item, item ∈ others.map (Linkage.tie others) ↔
      item ∈ items.map (Linkage.tie items) := by
    intro item
    rw [List.map_congr_left fun item hitem => hcoherent.tie_congr hmem hitem]
    exact (hperm.map _).mem_iff.symm
  intro a b
  rw [(linked_of_freeze hother).links_iff, (linked_of_freeze h).links_iff]
  simp only [items_laidOut, Linkage.Couple, Linkage.Pairs, htied]

end Blueprint

namespace Linkage

/-- Linking is an exact matching of fields and enables.  Items with bits and distinct names freeze
exactly when they are linkable; in a built layout the links pair fields with enables that name each
other; and which names are linked does not depend on the order of the items. -/
theorem links_are_matching :
    (∀ (name : String) (items : List Item) (dynamicSize : Bool),
      (items.filterMap Item.name?).Nodup → (∀ item ∈ items, item.bits ≠ 0) →
        ((∃ layout, Blueprint.freeze name items dynamicSize = .ok layout) ↔ Linkable items)) ∧
    (∀ (blueprint : Blueprint) (layout : Layout),
      blueprint.build = .ok layout → layout.Matched) ∧
    ∀ (name : String) (items others : List Item) (dynamicSize : Bool) (layout : Layout),
      items.Perm others → Blueprint.freeze name items dynamicSize = .ok layout →
        ∃ other, Blueprint.freeze name others dynamicSize = .ok other ∧
          ∀ a b, other.Links a b ↔ layout.Links a b := by
  refine ⟨?_, ?_, ?_⟩
  · intro name items dynamicSize hnames hbits
    constructor
    · rintro ⟨layout, h⟩
      obtain ⟨_, hlinkable, _⟩ := Blueprint.freeze_eq_ok.mp h
      exact hlinkable
    · intro hlinkable
      have hwide : ∀ item ∈ items, 0 < item.bits := fun item hitem =>
        Nat.pos_of_ne_zero (hbits item hitem)
      exact ⟨_, Blueprint.freeze_eq_ok.mpr ⟨⟨hwide, hnames⟩, hlinkable, rfl⟩⟩
  · intro blueprint layout h
    exact (Blueprint.linked_of_build h).matched
  · intro name items others dynamicSize layout hperm h
    exact Blueprint.freeze_perm hperm h

/-- The gate of a derived layout is linked to its structure, in either order of the items. -/
theorem links_full :
    Linkable Layout.Sample.fullLayout.items ∧ Layout.Sample.fullLayout.Matched ∧
      ∃ other,
        Blueprint.freeze "full" Layout.Sample.fullLayout.items.reverse false = .ok other ∧
          other.Links "gate" "pair" := by
  have hfreeze : Blueprint.freeze "full" Layout.Sample.fullLayout.items false =
      .ok Layout.Sample.fullLayout := rfl
  have hlinks : Layout.Sample.fullLayout.Links "gate" "pair" :=
    ⟨_, List.mem_cons_self, 2, _, rfl, rfl, rfl, rfl⟩
  obtain ⟨hlinkable, hmatched, horder⟩ := links_are_matching
  refine ⟨?_, hmatched Layout.Sample.full _ rfl, ?_⟩
  · exact (hlinkable "full" _ false (by decide) (by decide)).mp ⟨_, hfreeze⟩
  · obtain ⟨other, hother, hsame⟩ := horder "full" _ _ false _ (List.reverse_perm _).symm hfreeze
    exact ⟨other, hother, (hsame "gate" "pair").mpr hlinks⟩

end Linkage

end RadioPacket
