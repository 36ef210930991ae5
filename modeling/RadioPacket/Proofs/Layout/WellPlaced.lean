import RadioPacket.Proofs.Layout.Cursor
import RadioPacket.Proofs.Leaf.Normal

/-!
# Well-placed layouts

The promise that a built layout makes to those who read and write packets through it: its slots
cover its bits from the first to the last without gap or overlap, they are wide enough to exist and
narrow enough to be read, and a name leads to the one slot that carries it.
-/

namespace RadioPacket

namespace Slot

theorem Tile.position_head {start : Nat} {slots : List Slot} (h : Tile start slots) {slot : Slot}
    (hhead : slots.head? = some slot) : slot.position.offset = start := by
  cases slots with
  | nil => cases hhead
  | cons first rest =>
      cases hhead
      exact h.1

/-- Of two neighbouring slots the second starts where the first ends. -/
theorem Tile.position_succ {start : Nat} {slots : List Slot} (h : Tile start slots) {i : Nat}
    {a b : Slot} (ha : slots[i]? = some a) (hb : slots[i + 1]? = some b) :
    b.position = a.finish := by
  induction slots generalizing start i with
  | nil => cases ha
  | cons first rest ih =>
      obtain ⟨hfirst, hrest⟩ := h
      cases i with
      | zero =>
          cases ha
          have hhead : rest.head? = some b := by rw [List.head?_eq_getElem?]; exact hb
          have hoffset := hrest.position_head hhead
          rw [← hfirst] at hoffset
          exact congrArg Position.mk hoffset
      | succ i => exact ih hrest (by simpa using ha) (by simpa using hb)

theorem Tile.finish_getLast {start : Nat} {slots : List Slot} (h : Tile start slots) {slot : Slot}
    (hlast : slots.getLast? = some slot) :
    slot.finish = ⟨start + Item.totalBits (slots.map Slot.item)⟩ := by
  induction slots generalizing start with
  | nil => cases hlast
  | cons first rest ih =>
      obtain ⟨hfirst, hrest⟩ := h
      cases rest with
      | nil =>
          cases hlast
          exact congrArg Position.mk (congrArg (· + first.bits) hfirst)
      | cons second rest =>
          rw [List.getLast?_cons_cons] at hlast
          rw [ih hrest hlast, List.map_cons, Item.totalBits, Nat.add_assoc]
          rfl

theorem Tile.exists_covering {start : Nat} {slots : List Slot} (h : Tile start slots)
    {offset : Nat} (hstart : start ≤ offset)
    (hend : offset < start + Item.totalBits (slots.map Slot.item)) :
    ∃ slot ∈ slots, slot.position.offset ≤ offset ∧ offset < slot.finish.offset := by
  induction slots generalizing start with
  | nil => exact absurd hend (Nat.not_lt_of_le hstart)
  | cons first rest ih =>
      obtain ⟨hfirst, hrest⟩ := h
      have hfinish : first.finish.offset = start + first.bits := by rw [← hfirst]; rfl
      by_cases hinside : offset < first.finish.offset
      · exact ⟨first, List.mem_cons_self, by omega, hinside⟩
      · have hbits : first.item.bits = first.bits := rfl
        rw [List.map_cons, Item.totalBits, hbits] at hend
        obtain ⟨slot, hslot, hcovers⟩ := ih hrest (by omega) (by omega)
        exact ⟨slot, List.mem_cons_of_mem first hslot, hcovers⟩

/-- Slots that stand one behind the other are their items, laid from the first position on. -/
theorem Tile.map_placed {start : Nat} {slots : List Slot} (h : Tile start slots) :
    (slots.map fun slot => (⟨slot.item, slot.position⟩ : Placed)) =
      Cursor.lay ⟨start⟩ (slots.map Slot.item) := by
  induction slots generalizing start with
  | nil => rfl
  | cons first rest ih =>
      obtain ⟨hfirst, hrest⟩ := h
      have hposition : first.position = ⟨start⟩ := congrArg Position.mk hfirst
      rw [List.map_cons, ih hrest, hposition]
      rfl

end Slot

namespace Layout

/-- The slots cover the bits without gap or overlap, keep within the limits of width, and are found
by their names. -/
structure WellPlaced (layout : Layout) : Prop where
  starts : ∀ slot, layout.slots.head? = some slot → slot.position = .start
  gapless : ∀ (i : Nat) (a b : Slot), layout.slots[i]? = some a →
    layout.slots[i + 1]? = some b → b.position = a.finish
  ends : ∀ slot, layout.slots.getLast? = some slot → slot.finish = ⟨layout.bits⟩
  empty : layout.slots = [] → layout.bits = 0
  slot_wide : ∀ slot ∈ layout.slots, 1 ≤ slot.bits
  enable_narrow : ∀ slot ∈ layout.slots, ∀ enable, slot.item = .enable enable → enable.bits ≤ 64
  leaf_narrow : ∀ slot ∈ layout.slots, ∀ field type, slot.item = .field field →
    field.type = .leaf type → field.bits ≤ 64
  short : layout.bits ≤ 65535 * 32
  names_distinct : ∀ (i j : Nat) (a b : Slot) (name : String), layout.slots[i]? = some a →
    layout.slots[j]? = some b → a.name? = some name → b.name? = some name → i = j
  index_eq : ∀ (name : String) (i : Nat), layout.index? name = some i ↔
    ∃ slot, layout.slots[i]? = some slot ∧ slot.name? = some name

variable {layout : Layout}

theorem getElem?_items {i : Nat} {slot : Slot} (h : layout.slots[i]? = some slot) :
    layout.items[i]? = some slot.item := by rw [items, List.getElem?_map, h, Option.map_some]

theorem Sound.eq_of_name? (h : layout.Sound) {i j : Nat} {a b : Slot} {name : String}
    (ha : layout.slots[i]? = some a) (hb : layout.slots[j]? = some b)
    (haname : a.name? = some name) (hbname : b.name? = some name) : i = j :=
  Item.index_eq_of_name? h.names (getElem?_items ha) (getElem?_items hb) haname hbname

/-- Under distinct names, the index of a name is the index of the slot that carries it. -/
theorem index?_eq_some_of_nodup (h : (layout.items.filterMap Item.name?).Nodup) {name : String}
    {i : Nat} : layout.index? name = some i ↔
      ∃ slot, layout.slots[i]? = some slot ∧ slot.name? = some name := by
  rw [index?, List.findIdx?_eq_some_iff_getElem]
  constructor
  · rintro ⟨hi, hname, _⟩
    exact ⟨layout.slots[i], List.getElem?_eq_getElem hi, by simpa using hname⟩
  · rintro ⟨slot, hslot, hname⟩
    obtain ⟨hi, rfl⟩ := List.getElem?_eq_some_iff.mp hslot
    refine ⟨hi, by simpa using hname, ?_⟩
    intro j hj hother
    have hfound := List.getElem?_eq_getElem (Nat.lt_trans hj hi)
    have hjname : layout.slots[j].name? = some name := by simpa using hother
    have heq : j = i :=
      Item.index_eq_of_name? h (getElem?_items hfound) (getElem?_items hslot) hjname hname
    omega

theorem Sound.index?_eq_some (h : layout.Sound) {name : String} {i : Nat} :
    layout.index? name = some i ↔
      ∃ slot, layout.slots[i]? = some slot ∧ slot.name? = some name :=
  index?_eq_some_of_nodup h.names

theorem Sound.wellPlaced (h : layout.Sound) : layout.WellPlaced where
  starts slot hhead := congrArg Position.mk (h.tile.position_head hhead)
  gapless i a b ha hb := h.tile.position_succ ha hb
  ends slot hlast := by
    rw [h.tile.finish_getLast hlast, Nat.zero_add, ← h.total]
    rfl
  empty hempty := by
    rw [← h.total, items, hempty]
    rfl
  slot_wide slot hslot := h.bits_pos hslot
  enable_narrow slot hslot enable henable := by
    have hgate := h.gateFits hslot
    rw [henable] at hgate
    exact hgate
  leaf_narrow slot hslot field type hfield htype := by
    rw [Field.bits, htype]
    exact type.bits_le
  short := h.bits_le
  names_distinct i j a b name ha hb haname hbname := h.eq_of_name? ha hb haname hbname
  index_eq name i := h.index?_eq_some

theorem Sound.ofLayout_eq (h : layout.Sound) : Cursor.ofLayout layout = .behind layout.items := by
  rw [Cursor.ofLayout, h.tile.map_placed, ← h.total]
  rfl

/-- Every built layout is well placed, however often it was derived.  Placing with stored positions
gives the same layouts and the same errors, so its walk over them never finds a gap, neither from
the start nor from a built layout on.

That leaf fields are narrow rests on the check of their types alone.  Placing does not limit them: it
takes a field of any width for which a packet has room. -/
theorem Built.placed_without_gaps (h : layout.Built) :
    (layout.WellPlaced ∧
      (∀ (shape : LeafShape) (type : LeafType), shape.check = .ok type → shape.bits ≤ 64) ∧
      ∀ (items : List Item) (field : Field), Item.totalBits items + field.bits ≤ maxBits →
        Blueprint.placeItem items (.field field) = .ok (items ++ [.field field])) ∧
      (∀ blueprint : Blueprint, blueprint.base = [] →
        Cursor.start.build blueprint = blueprint.build.mapError .layout) ∧
      ∀ blueprint : Blueprint, blueprint.base = layout.items →
        (Cursor.ofLayout layout).build blueprint = blueprint.build.mapError .layout := by
  refine ⟨⟨h.sound.wellPlaced, ?_, ?_⟩, ?_, ?_⟩
  · intro shape type hcheck
    exact LeafShape.bits_le_of_check hcheck
  · intro items field hroom
    exact Blueprint.placeItem_eq_ok.mpr ⟨(Nat.le_add_left _ _).trans hroom, hroom, rfl⟩
  · intro blueprint hbase
    have hstart : Cursor.start = .behind blueprint.base := by
      rw [hbase]
      rfl
    rw [hstart]
    exact Cursor.build_behind blueprint
  · intro blueprint hbase
    rw [h.sound.ofLayout_eq, ← hbase]
    exact Cursor.build_behind blueprint

/-! ## A derived layout -/

namespace Sample

/-- Three bits that hold one of two symbols. -/
def kind : LeafType := ⟨.enumeration ⟨"kind", 3, [("one", 1), ("five", 5)]⟩, by decide⟩

/-- Eight bits with four of them behind the point. -/
def level : LeafType := ⟨.fixedPoint 8 4 true, by decide⟩

/-- A structure of eleven bits. -/
def pair : Blueprint :=
  ((Blueprint.new "pair").field { name := "kind", type := .leaf kind }).field
    { name := "level", type := .leaf level }

/-- The layout of `pair`. -/
def pairLayout : Layout where
  name := "pair"
  slots :=
    [⟨.field { name := "kind", type := .leaf kind }, ⟨0⟩, none⟩,
      ⟨.field { name := "level", type := .leaf level }, ⟨3⟩, none⟩]
  bits := 11
  warnings := [.size "pair" 11, .alignment "pair" "level" ⟨3⟩ 8 8]
  dynamicSize := false

/-- A gate for a structure that is still to come, and bits kept free for it. -/
def frame : Blueprint :=
  ((Blueprint.new "frame").enable { name := "gate", field := some "pair" }).reserved 14

/-- The layout of `frame`. -/
def frameLayout : Layout where
  name := "frame"
  slots :=
    [⟨.enable { name := "gate", field := some "pair" }, ⟨0⟩, none⟩,
      ⟨.reserved { bits := 14 }, ⟨1⟩, none⟩]
  bits := 15
  warnings := [.size "frame" 15]
  dynamicSize := false

/-- The frame with its structure, in the middle of the free bits. -/
def full : Blueprint :=
  (Blueprint.extend "full" frameLayout).rebind ⟨3⟩
    { name := "pair", type := .record pairLayout, mode := .optional, enabledBy := some "gate" }

/-- The layout of `full`. -/
def fullLayout : Layout where
  name := "full"
  slots :=
    [⟨.enable { name := "gate", field := some "pair" }, ⟨0⟩, some 2⟩,
      ⟨.reserved { bits := 2 }, ⟨1⟩, none⟩,
      ⟨.field { name := "pair", type := .record pairLayout, mode := .optional,
                enabledBy := some "gate" }, ⟨3⟩, some 0⟩,
      ⟨.reserved { bits := 1 }, ⟨14⟩, none⟩]
  bits := 15
  warnings := [.size "full" 15]
  dynamicSize := false

theorem built_pairLayout : pairLayout.Built := by
  have hsteps : ∀ step ∈ pair.steps, ∀ inner, step.record? = some inner → inner.Built := by
    intro step hstep inner hinner
    simp only [pair, Blueprint.new, Blueprint.field, Blueprint.item, Blueprint.step,
      List.nil_append, List.cons_append, List.mem_cons, List.not_mem_nil, or_false] at hstep
    rcases hstep with rfl | rfl
    · cases hinner
    · cases hinner
  exact .fresh rfl hsteps rfl

theorem built_frameLayout : frameLayout.Built := by
  have hsteps : ∀ step ∈ frame.steps, ∀ inner, step.record? = some inner → inner.Built := by
    intro step hstep inner hinner
    simp only [frame, Blueprint.new, Blueprint.enable, Blueprint.reserved, Blueprint.item,
      Blueprint.step, List.nil_append, List.cons_append, List.mem_cons, List.not_mem_nil,
      or_false] at hstep
    rcases hstep with rfl | rfl
    · cases hinner
    · cases hinner
  exact .fresh rfl hsteps rfl

theorem built_fullLayout : fullLayout.Built := by
  have hsteps : ∀ step ∈ full.steps, ∀ inner, step.record? = some inner → inner.Built := by
    intro step hstep inner hinner
    obtain rfl := List.mem_singleton.mp hstep
    cases hinner
    exact built_pairLayout
  exact .derived built_frameLayout rfl hsteps rfl

/-- The derived layout is well placed, and its base builds the same with stored positions. -/
theorem wellPlaced_fullLayout :
    fullLayout.Built ∧ fullLayout.WellPlaced ∧
      (Cursor.ofLayout fullLayout).build (.extend "again" fullLayout) =
        (Blueprint.extend "again" fullLayout).build.mapError .layout := by
  obtain ⟨⟨hplaced, _, _⟩, _, hagain⟩ := Built.placed_without_gaps built_fullLayout
  exact ⟨built_fullLayout, hplaced, hagain _ rfl⟩

end Sample

end Layout

end RadioPacket
