import RadioPacket.Proofs.Layout.Derived

/-!
# Rebinding reserved bits of a built layout

Rebinding cuts a layout at the reserved slot that holds a bit, puts a field there with what is left
of the run on either side of it, and freezes the items again.  The field needs room in that one
slot, whatever is reserved behind it; freezing then asks for a fresh name and for items that can be
linked.  All other items were settled when the layout was built, so linking leaves them as they
are, and the new field alone may come to be gated, by an enable that has named it before it was
there.
-/

namespace RadioPacket

/-! ## What stands in the place of a run -/

namespace Item

@[simp] theorem filterMap_name?_reservedRun (bits : Nat) :
    (reservedRun bits).filterMap name? = [] := by
  unfold reservedRun
  split
  · rfl
  · rfl

theorem bits_pos_of_mem_reservedRun {bits : Nat} {item : Item} (h : item ∈ reservedRun bits) :
    0 < item.bits := by
  unfold reservedRun at h
  split at h
  · cases h
  · next hbits =>
      obtain rfl := List.mem_singleton.mp h
      exact Nat.pos_of_ne_zero hbits

theorem cutAt?_append {before after : List Item} {item : Item} {inner : Nat}
    (hinner : inner < item.bits) :
    cutAt? (before ++ item :: after) (totalBits before + inner) =
      some ⟨before, item, inner, after⟩ := by
  induction before with
  | nil =>
      have hinside : 0 + inner < item.bits := by omega
      rw [List.nil_append, cutAt?, totalBits, if_pos hinside, Nat.zero_add]
  | cons first before ih =>
      have hbehind : ¬ first.bits + totalBits before + inner < first.bits := by omega
      have hrest : first.bits + totalBits before + inner - first.bits =
          totalBits before + inner := by omega
      rw [List.cons_append, cutAt?, totalBits, if_neg hbehind, hrest, ih]
      rfl

end Item

namespace Slot

/-- The item of a slot at its place, without its link. -/
def placed (slot : Slot) : Placed := ⟨slot.item, slot.position⟩

/-- The items that take the place of a run when a field takes bits of it. -/
def splicedItems (run : Slot) (position : Position) (field : Field) : List Item :=
  Item.reservedRun (position.offset - run.position.offset) ++ [.field field] ++
    Item.reservedRun (run.finish.offset - (position.offset + field.bits))

/-- These items at their places: at most one reserved run, the field, at most one reserved run. -/
def spliced (run : Slot) (position : Position) (field : Field) : List Placed :=
  Cursor.reservedBetween run.position position ++ [⟨.field field, position⟩] ++
    Cursor.reservedBetween (position + field.bits) run.finish

/-- The pieces stand one behind the other in the bits of the slot, and take all of them. -/
def FilledBy (run : Slot) (pieces : List Placed) : Prop :=
  Cursor.lay run.position (pieces.map Placed.item) = pieces ∧
    Item.totalBits (pieces.map Placed.item) = run.bits

section Spliced

variable {run : Slot} {position : Position} {field : Field}
  (hstart : run.position.offset ≤ position.offset)
  (hroom : position.offset + field.bits ≤ run.finish.offset)

include hstart hroom

theorem lay_splicedItems :
    Cursor.lay run.position (run.splicedItems position field) = run.spliced position field := by
  have hposition : run.position + (position.offset - run.position.offset) = position :=
    congrArg Position.mk (Nat.add_sub_cancel' hstart)
  have hfield : Item.totalBits [.field field] = field.bits := rfl
  have hbehind : run.position + (position.offset - run.position.offset + field.bits) =
      position + field.bits := by
    have hoffset : run.position.offset + (position.offset - run.position.offset + field.bits) =
        position.offset + field.bits := by omega
    exact congrArg Position.mk hoffset
  have hrest : Cursor.reservedBetween (position + field.bits) run.finish = Cursor.lay _ _ :=
    Cursor.reservedBetween_eq_lay hroom
  rw [splicedItems, spliced, Cursor.lay_append, Cursor.lay_append, Item.totalBits_append,
    Item.totalBits_reservedRun, hposition, hfield, hbehind,
    Cursor.reservedBetween_eq_lay hstart, hrest]
  rfl

theorem totalBits_splicedItems : Item.totalBits (run.splicedItems position field) = run.bits := by
  have hfield : Item.totalBits [.field field] = field.bits := rfl
  have hfinish : run.finish.offset = run.position.offset + run.bits := rfl
  rw [splicedItems, Item.totalBits_append, Item.totalBits_append, Item.totalBits_reservedRun,
    Item.totalBits_reservedRun, hfield]
  omega

theorem filledBy_spliced : run.FilledBy (run.spliced position field) := by
  rw [← lay_splicedItems hstart hroom, FilledBy, Cursor.map_item_lay]
  exact ⟨rfl, totalBits_splicedItems hstart hroom⟩

end Spliced

end Slot

/-! ## The slot that is cut -/

namespace Layout

/-- A layout cut at a reserved slot that holds the bit at a position. -/
structure Target (layout : Layout) (position : Position) (before : List Slot) (run : Slot)
    (after : List Slot) : Prop where
  slots : layout.slots = before ++ run :: after
  reserved : run.item.isReserved = true
  start_le : run.position.offset ≤ position.offset
  lt_finish : position.offset < run.finish.offset

/-- The items of a cut layout when a field takes bits of the run. -/
def reboundItems (before : List Slot) (run : Slot) (after : List Slot) (position : Position)
    (field : Field) : List Item :=
  before.map Slot.item ++ run.splicedItems position field ++ after.map Slot.item

variable {layout : Layout} {position : Position} {field : Field} {before after : List Slot}
  {run : Slot}

theorem Sound.lay_around (hsound : layout.Sound) (hslots : layout.slots = before ++ run :: after) :
    before.map Slot.placed = Cursor.lay .start (before.map Slot.item) ∧
      run.position = Position.start + Item.totalBits (before.map Slot.item) ∧
        after.map Slot.placed = Cursor.lay run.finish (after.map Slot.item) := by
  have hlaid : layout.slots.map Slot.placed = Cursor.lay .start (layout.slots.map Slot.item) :=
    hsound.tile.map_placed
  simp only [hslots, List.map_append, List.map_cons, Cursor.lay_append, Cursor.lay] at hlaid
  obtain ⟨hbefore, hrest⟩ := List.append_inj hlaid (by simp)
  obtain ⟨hrun, hafter⟩ := List.cons_eq_cons.mp hrest
  have hposition : run.position = Position.start + Item.totalBits (before.map Slot.item) :=
    congrArg Placed.start hrun
  refine ⟨hbefore, hposition, ?_⟩
  rw [hafter, ← hposition]
  rfl

namespace Target

variable (h : layout.Target position before run after)

include h

theorem items_eq : layout.items = before.map Slot.item ++ run.item :: after.map Slot.item := by
  rw [items, h.slots, List.map_append, List.map_cons]

theorem cutAt?_eq (hsound : layout.Sound) :
    Item.cutAt? layout.items position.offset =
      some ⟨before.map Slot.item, run.item, position.offset - run.position.offset,
        after.map Slot.item⟩ := by
  have hstart : run.position.offset = Item.totalBits (before.map Slot.item) := by
    rw [(hsound.lay_around h.slots).2.1, Cursor.start_add]
  have hfinish : run.finish.offset = run.position.offset + run.item.bits := rfl
  have hinner : position.offset - run.position.offset < run.item.bits := by
    have := h.start_le
    have := h.lt_finish
    omega
  have hoffset : position.offset = Item.totalBits (before.map Slot.item) +
      (position.offset - run.position.offset) := by
    rw [← hstart, Nat.add_sub_cancel' h.start_le]
  calc
    Item.cutAt? layout.items position.offset =
        Item.cutAt? (before.map Slot.item ++ run.item :: after.map Slot.item)
          (Item.totalBits (before.map Slot.item) + (position.offset - run.position.offset)) := by
      rw [h.items_eq, ← hoffset]
    _ = _ := Item.cutAt?_append hinner

/-- The field goes into the slot if there is room for it, and does not go beyond it otherwise. -/
theorem placeRebound_eq (hsound : layout.Sound) (name : String) :
    Blueprint.placeRebound name layout.items position field =
      if run.finish.offset < position.offset + field.bits then
        .error (.rebindOverflow name field.name position field.bits)
      else
        .ok (reboundItems before run after position field) := by
  have hcut := h.cutAt?_eq hsound
  have hreserved := h.reserved
  have hstart := h.start_le
  have hfinish : run.finish.offset = run.position.offset + run.item.bits := rfl
  cases hitem : run.item with
  | field _ =>
      rw [hitem] at hreserved
      cases hreserved
  | enable _ =>
      rw [hitem] at hreserved
      cases hreserved
  | reserved remains =>
      have hbits : run.item.bits = remains.bits := by rw [hitem]; rfl
      rw [hitem] at hcut
      simp only [Blueprint.placeRebound, hcut]
      by_cases hshort : run.finish.offset < position.offset + field.bits
      · rw [if_pos hshort, if_pos (by omega)]
      · have hrest : remains.bits - (position.offset - run.position.offset) - field.bits =
            run.finish.offset - (position.offset + field.bits) := by omega
        rw [if_neg hshort, if_neg (by omega), hrest, reboundItems, Slot.splicedItems]
        simp only [List.append_assoc]

end Target

theorem Sound.exists_target (hsound : layout.Sound) {cut : Cut}
    (hcut : Item.cutAt? layout.items position.offset = some cut)
    (hreserved : cut.item.isReserved = true) :
    ∃ before run after, layout.Target position before run after := by
  obtain ⟨hitems, hoffset, hinner⟩ := Item.cutAt?_eq_some hcut
  obtain ⟨before, rest, hslots, hbefore, hrest⟩ := List.map_eq_append_iff.mp hitems
  obtain ⟨run, after, rfl, hrun, -⟩ := List.map_eq_cons_iff.mp hrest
  have hstart : run.position.offset = Item.totalBits cut.before := by
    rw [(hsound.lay_around hslots).2.1, Cursor.start_add, hbefore]
  have hfinish : run.finish.offset = run.position.offset + run.item.bits := rfl
  rw [← hrun] at hinner hreserved
  exact ⟨before, run, after, hslots, hreserved, by omega, by omega⟩

theorem Sound.placeRebound_eq_notFound (hsound : layout.Sound)
    (hnone : ∀ before run after, ¬ layout.Target position before run after) (name : String) :
    Blueprint.placeRebound name layout.items position field =
      .error (.rebindTargetNotFound name field.name position) := by
  unfold Blueprint.placeRebound
  split
  · next hcut =>
      obtain ⟨before, run, after, htarget⟩ := hsound.exists_target hcut rfl
      exact absurd htarget (hnone before run after)
  · rfl

theorem build_rebind (layout : Layout) (position : Position) (field : Field) :
    (layout.rebind position field).build =
      (Blueprint.placeRebound layout.name layout.items position field >>= fun placed =>
        Blueprint.freeze layout.name placed layout.dynamicSize) := by
  have hplace : (layout.rebind position field).place =
      Blueprint.placeRebound layout.name layout.items position field := by
    change (Blueprint.placeRebound layout.name layout.items position field >>= pure) = _
    exact bind_pure _
  rw [Blueprint.build, Blueprint.draft, hplace]
  cases Blueprint.placeRebound layout.name layout.items position field with
  | error _ => rfl
  | ok placed =>
      change (Blueprint.freeze layout.name placed layout.dynamicSize >>= pure) = _
      exact bind_pure _

end Layout

/-! ## Names and links of the new items -/

namespace Linkage

variable {items others : List Item}

/-- The rules of linking are about fields and enables, and not about their order. -/
theorem Linkable.congr
    (hmem : ∀ item : Item, item.isReserved = false → (item ∈ items ↔ item ∈ others))
    (h : Linkable items) : Linkable others := by
  have hfield (field : Field) : Item.field field ∈ others → Item.field field ∈ items :=
    (hmem (.field field) rfl).mpr
  have henable (enable : Enable) : Item.enable enable ∈ others → Item.enable enable ∈ items :=
    (hmem (.enable enable) rfl).mpr
  have hfree (name : String) (hother : IsFree others name) : IsFree items name :=
    fun field hitem => hother field ((hmem (.field field) rfl).mp hitem)
  refine ⟨⟨?_, ?_, ?_⟩, ⟨?_, ?_, ?_⟩⟩
  · intro field name hmemfield hname
    obtain ⟨enable, hfound, hnamed⟩ := h.known field name (hfield field hmemfield) hname
    exact ⟨enable, (hmem (.enable enable) rfl).mp hfound, hnamed⟩
  · intro f g name hf hg
    exact h.single f g name (hfield f hf) (hfield g hg)
  · intro field enable hf he
    exact h.agrees field enable (hfield field hf) (henable enable he)
  · intro enable he hunclaimed
    exact h.aimed enable (henable enable he) (hfree enable.name hunclaimed)
  · intro enable field he hunclaimed hf
    exact h.ungated enable field (henable enable he) (hfree enable.name hunclaimed)
      (hfield field hf)
  · intro d e field hd he hdfree hefree hf
    exact h.sole d e field (henable d hd) (henable e he) (hfree d.name hdfree)
      (hfree e.name hefree) (hfield field hf)

theorem map_placed_slots (items : List Item) :
    (slots items).map Slot.placed = Cursor.lay .start items := by
  have hlaid := (tile_slotsFrom items .start items).map_placed
  rwa [map_item_slotsFrom] at hlaid

/-- What linking makes of a field that comes to items that are settled already. -/
inductive Binds (items : List Item) (field : Field) : Field → Prop where
  /-- An enable has named the field before it was there. -/
  | gated {enable : Enable} : Item.enable enable ∈ items → enable.field = some field.name →
      field.enabledBy = none → Binds items field (field.gatedBy enable.name)
  | kept : (∀ enable, Item.enable enable ∈ items → enable.field = some field.name →
      field.enabledBy ≠ none) → Binds items field field

theorem Binds.bits_eq {field bound : Field} (h : Binds items field bound) :
    bound.bits = field.bits := by
  cases h with
  | gated _ _ _ => rfl
  | kept _ => rfl

/-- A new field among items that can be linked is gated by the enable that has named it, if it has
not named one itself. -/
theorem Coherent.binds_tieField (h : Coherent others) {field : Field}
    (hfield : Item.field field ∈ others)
    (henables : ∀ enable, Item.enable enable ∈ others ↔ Item.enable enable ∈ items) :
    Binds items field (tieField others field) := by
  cases hgate : field.enabledBy with
  | some name =>
      rw [h.tieField_gated hfield hgate]
      refine .kept fun _ _ _ hopen => ?_
      cases hgate.symm.trans hopen
  | none =>
      by_cases hpaired : ∃ enable, Pairs others enable field
      · obtain ⟨enable, hpair⟩ := hpaired
        have hnamed : enable.field = some field.name := by
          apply hpair.2.2.resolve_left
          rw [hgate]
          nofun
        rw [h.tieField_eq hpair hgate]
        exact .gated ((henables enable).mp hpair.1) hnamed hgate
      · rw [tieField_eq_self hfield (not_exists.mp hpaired)]
        refine .kept fun enable henable hnamed _ => hpaired ⟨enable, ?_⟩
        exact ⟨(henables enable).mpr henable, hfield, .inr hnamed⟩

end Linkage

namespace Layout

/-- One layout is another one with a field in the place of reserved bits.  The run that held them
gives way to the field and to what is left of the run, which takes exactly its bits, and every other
slot keeps its item and its place. -/
structure Rebound (base : Layout) (position : Position) (field : Field) (derived : Layout) :
    Prop where
  name : derived.name = base.name
  bits : derived.bits = base.bits
  dynamicSize : derived.dynamicSize = base.dynamicSize
  linked : derived.Linked
  slots : ∃ before run after bound, base.Target position before run after ∧
    Linkage.Binds base.items field bound ∧ run.FilledBy (run.spliced position bound) ∧
      derived.slots.map Slot.placed =
        before.map Slot.placed ++ run.spliced position bound ++ after.map Slot.placed

variable {layout derived : Layout} {position : Position} {field : Field}
  {before after : List Slot} {run : Slot}

theorem filterMap_name?_reboundItems :
    (reboundItems before run after position field).filterMap Item.name? =
      before.filterMap Slot.name? ++ field.name :: after.filterMap Slot.name? := by
  have hname : [Item.field field].filterMap Item.name? = [field.name] := rfl
  have hslots (slots : List Slot) :
      (slots.map Slot.item).filterMap Item.name? = slots.filterMap Slot.name? :=
    List.filterMap_map ..
  simp only [reboundItems, Slot.splicedItems, List.filterMap_append,
    Item.filterMap_name?_reservedRun, hname, hslots, List.nil_append, List.append_nil]
  exact (List.append_cons ..).symm

namespace Target

section Legal

variable (h : layout.Target position before run after) (hsound : layout.Sound)

include h hsound

/-- The new names are distinct exactly when the name of the field is fresh, except that it may be
that of the run. -/
theorem nodup_reboundItems :
    ((reboundItems before run after position field).filterMap Item.name?).Nodup ↔
      ∀ slot ∈ before ++ after, slot.name? ≠ some field.name := by
  have hnames := hsound.names
  have hsub : (before.filterMap Slot.name? ++ after.filterMap Slot.name?).Sublist
      (layout.items.filterMap Item.name?) := by
    rw [items, List.filterMap_map, ← List.filterMap_append, h.slots]
    exact ((List.sublist_cons_self run after).append_left before).filterMap _
  rw [filterMap_name?_reboundItems, List.nodup_middle, List.nodup_cons,
    and_iff_left (hnames.sublist hsub), ← List.filterMap_append, List.mem_filterMap]
  simp only [not_exists, not_and]

theorem wide_reboundItems (hwide : 0 < field.bits) :
    ∀ item ∈ reboundItems before run after position field, 0 < item.bits := by
  have hold (slot : Slot) (hslot : slot ∈ layout.slots) : 0 < slot.item.bits :=
    hsound.bits_pos hslot
  rw [h.slots] at hold
  intro item hitem
  simp only [reboundItems, Slot.splicedItems, List.mem_append, List.mem_map,
    List.mem_singleton] at hitem
  rcases hitem with (⟨slot, hslot, rfl⟩ | (hleft | rfl) | hright) | ⟨slot, hslot, rfl⟩
  · exact hold slot (List.mem_append_left _ hslot)
  · exact Item.bits_pos_of_mem_reservedRun hleft
  · exact hwide
  · exact Item.bits_pos_of_mem_reservedRun hright
  · exact hold slot (List.mem_append_right _ (List.mem_cons_of_mem run hslot))

variable (hroom : position.offset + field.bits ≤ run.finish.offset)

include hroom

theorem placeRebound_eq_ok (name : String) :
    Blueprint.placeRebound name layout.items position field =
      .ok (reboundItems before run after position field) :=
  (h.placeRebound_eq hsound name).trans (if_neg (Nat.not_lt_of_le hroom))

theorem mem_reboundItems {item : Item} (hsolid : item.isReserved = false) :
    item ∈ reboundItems before run after position field ↔
      item ∈ Item.field field :: layout.items := by
  have hplace : Blueprint.placeStep layout.name layout.items (.rebind position field) =
      .ok (reboundItems before run after position field) :=
    h.placeRebound_eq_ok hsound hroom layout.name
  have hmem := (Blueprint.solid_perm_of_placeStep hplace).mem_iff (a := item)
  have hfield : Item.solid [(Step.rebind position field).item] = [Item.field field] := rfl
  simpa [Item.mem_solid, hsolid, hfield, or_comm] using hmem

theorem linkable_reboundItems :
    Linkage.Linkable (reboundItems before run after position field) ↔
      Linkage.Linkable (.field field :: layout.items) := by
  constructor
  · exact Linkage.Linkable.congr fun item hsolid => h.mem_reboundItems hsound hroom hsolid
  · exact Linkage.Linkable.congr fun item hsolid => (h.mem_reboundItems hsound hroom hsolid).symm

/-- Freezing asks for a fresh name and for items that can be linked. -/
theorem exists_freeze_iff (hwide : 0 < field.bits) (name : String) (dynamicSize : Bool) :
    (∃ derived, Blueprint.freeze name (reboundItems before run after position field) dynamicSize =
      .ok derived) ↔
        (∀ slot ∈ before ++ after, slot.name? ≠ some field.name) ∧
          Linkage.Linkable (.field field :: layout.items) := by
  rw [← h.linkable_reboundItems hsound hroom, ← h.nodup_reboundItems hsound]
  constructor
  · rintro ⟨_, hfreeze⟩
    obtain ⟨⟨_, hnames⟩, hlinkable, _⟩ := Blueprint.freeze_eq_ok.mp hfreeze
    exact ⟨hnames, hlinkable⟩
  · rintro ⟨hnames, hlinkable⟩
    have hpositive := h.wide_reboundItems hsound hwide
    exact ⟨_, Blueprint.freeze_eq_ok.mpr ⟨⟨hpositive, hnames⟩, hlinkable, rfl⟩⟩

theorem totalBits_reboundItems :
    Item.totalBits (reboundItems before run after position field) = layout.bits := by
  have hrun : run.item.bits = run.bits := rfl
  rw [← hsound.total, h.items_eq, reboundItems, Item.totalBits_append, Item.totalBits_append,
    Slot.totalBits_splicedItems h.start_le hroom, Item.totalBits_append, Item.totalBits, hrun,
    Nat.add_assoc]

theorem lay_reboundItems :
    Cursor.lay .start (reboundItems before run after position field) =
      before.map Slot.placed ++ run.spliced position field ++ after.map Slot.placed := by
  obtain ⟨hbefore, hposition, hafter⟩ := hsound.lay_around h.slots
  have hfinish : Position.start + (Item.totalBits (before.map Slot.item) + run.bits) =
      run.finish := by
    rw [Slot.finish, hposition]
    exact congrArg Position.mk (Nat.add_assoc _ _ _).symm
  rw [reboundItems, Cursor.lay_append, Cursor.lay_append, Item.totalBits_append,
    Slot.totalBits_splicedItems h.start_le hroom, ← hposition, hfinish, hbefore, hafter,
    Slot.lay_splicedItems h.start_le hroom]

end Legal

theorem map_reboundItems (h : layout.Target position before run after) {change : Item → Item}
    (hchange : ∀ item, (change item).untied = item.untied)
    (hkept : ∀ item ∈ layout.items, change item = item) {bound : Field}
    (hfield : change (.field field) = .field bound) :
    (reboundItems before run after position field).map change =
      reboundItems before run after position bound := by
  have hbits : field.bits = bound.bits := by
    have hitem := Item.bits_change hchange (.field field)
    rw [hfield] at hitem
    exact hitem.symm
  have hspared (slots : List Slot) (hslots : ∀ slot ∈ slots, slot ∈ layout.slots) :
      (slots.map Slot.item).map change = slots.map Slot.item := by
    rw [List.map_map]
    apply List.map_congr_left
    intro slot hslot
    exact hkept slot.item (List.mem_map_of_mem (hslots slot hslot))
  have hbefore : ∀ slot ∈ before, slot ∈ layout.slots := by
    intro slot hslot
    rw [h.slots]
    exact List.mem_append_left _ hslot
  have hafter : ∀ slot ∈ after, slot ∈ layout.slots := by
    intro slot hslot
    rw [h.slots]
    exact List.mem_append_right _ (List.mem_cons_of_mem run hslot)
  simp only [reboundItems, Slot.splicedItems, List.map_append, List.map_singleton, hfield,
    Item.map_reservedRun hchange, hspared before hbefore, hspared after hafter, hbits]

theorem map_tie_reboundItems (h : layout.Target position before run after)
    (hbuilt : layout.Built) (hroom : position.offset + field.bits ≤ run.finish.offset)
    (hcoherent : Linkage.Coherent (reboundItems before run after position field)) :
    ∃ bound, Linkage.Binds layout.items field bound ∧
      (reboundItems before run after position field).map
          (Linkage.tie (reboundItems before run after position field)) =
        reboundItems before run after position bound := by
  have hmem {item : Item} (hsolid : item.isReserved = false) :=
    h.mem_reboundItems hbuilt.sound hroom hsolid
  have henables (enable : Enable) :
      Item.enable enable ∈ reboundItems before run after position field ↔
        Item.enable enable ∈ layout.items := by
    rw [hmem rfl]
    simp
  have hkept : ∀ item ∈ layout.items,
      Linkage.tie (reboundItems before run after position field) item = item := by
    intro item hitem
    exact Linkage.tie_eq_self_of_settled hbuilt.linked.settled hcoherent
      (fun item hitem hsolid => (hmem hsolid).mpr (List.mem_cons_of_mem _ hitem))
      (fun enable => (henables enable).mp) hitem
  have hbinds := hcoherent.binds_tieField ((hmem rfl).mpr List.mem_cons_self) henables
  exact ⟨_, hbinds, h.map_reboundItems (Linkage.untied_tie _) hkept rfl⟩

/-- What freezing makes of the new items. -/
theorem rebound_of_freeze (h : layout.Target position before run after) (hbuilt : layout.Built)
    (hroom : position.offset + field.bits ≤ run.finish.offset)
    (hfreeze : Blueprint.freeze layout.name (reboundItems before run after position field)
      layout.dynamicSize = .ok derived) : layout.Rebound position field derived := by
  have hlinked := Blueprint.linked_of_freeze hfreeze
  obtain ⟨⟨_, hnames⟩, hlinkable, hderived⟩ := Blueprint.freeze_eq_ok.mp hfreeze
  obtain ⟨bound, hbinds, htied⟩ :=
    h.map_tie_reboundItems hbuilt hroom (hlinkable.coherent hnames)
  have hboundroom : position.offset + bound.bits ≤ run.finish.offset := by
    rw [hbinds.bits_eq]
    exact hroom
  have hlay := h.lay_reboundItems hbuilt.sound hboundroom
  rw [htied] at hderived
  subst hderived
  refine ⟨rfl, ?_, rfl, hlinked, before, run, after, bound, h, hbinds,
    Slot.filledBy_spliced h.start_le hboundroom, ?_⟩
  · exact h.totalBits_reboundItems hbuilt.sound hboundroom
  · exact (Linkage.map_placed_slots _).trans hlay

/-- With room in the slot, rebinding is a matter of freezing. -/
theorem build_rebind_eq (h : layout.Target position before run after) (hsound : layout.Sound)
    (hroom : position.offset + field.bits ≤ run.finish.offset) :
    (layout.rebind position field).build =
      Blueprint.freeze layout.name (reboundItems before run after position field)
        layout.dynamicSize := by
  rw [build_rebind, h.placeRebound_eq_ok hsound hroom]
  rfl

theorem build_rebind_eq_overflow (h : layout.Target position before run after)
    (hsound : layout.Sound) (hshort : run.finish.offset < position.offset + field.bits) :
    (layout.rebind position field).build =
      .error (.rebindOverflow layout.name field.name position field.bits) := by
  rw [build_rebind, h.placeRebound_eq hsound, if_pos hshort]
  rfl

end Target

theorem Sound.build_rebind_eq_notFound (hsound : layout.Sound)
    (hnone : ∀ before run after, ¬ layout.Target position before run after) :
    (layout.rebind position field).build =
      .error (.rebindTargetNotFound layout.name field.name position) := by
  rw [build_rebind, hsound.placeRebound_eq_notFound hnone]
  rfl

/-- A rebinding that succeeds has found a slot with room for the field. -/
theorem Sound.exists_room_of_rebind (hsound : layout.Sound)
    (hbuild : (layout.rebind position field).build = .ok derived) :
    ∃ before run after, layout.Target position before run after ∧
      position.offset + field.bits ≤ run.finish.offset := by
  by_cases htarget : ∃ before run after, layout.Target position before run after
  · obtain ⟨before, run, after, htarget⟩ := htarget
    refine ⟨before, run, after, htarget, ?_⟩
    by_contra hshort
    rw [htarget.build_rebind_eq_overflow hsound (Nat.lt_of_not_le hshort)] at hbuild
    cases hbuild
  · simp only [not_exists] at htarget
    rw [hsound.build_rebind_eq_notFound htarget] at hbuild
    cases hbuild

/-- Rebinding bits of a built layout succeeds exactly when one reserved slot has room for the field,
no other item has its name and the items can be linked with it.  A bit that is not in a reserved
slot and a run that is too short have errors of their own.  What comes out is the layout with the
field in place of the bits, and nothing else is moved, changed or renamed. -/
theorem Built.rebind_exact (h : layout.Built) (position : Position) (field : Field)
    (hwide : 0 < field.bits) :
    ((∃ derived, (layout.rebind position field).build = .ok derived) ↔
      ∃ before run after, layout.Target position before run after ∧
        position.offset + field.bits ≤ run.finish.offset ∧
          (∀ slot ∈ before ++ after, slot.name? ≠ some field.name) ∧
            Linkage.Linkable (.field field :: layout.items)) ∧
    ((∀ before run after, ¬ layout.Target position before run after) →
      (layout.rebind position field).build =
        .error (.rebindTargetNotFound layout.name field.name position)) ∧
    (∀ before run after, layout.Target position before run after →
      run.finish.offset < position.offset + field.bits →
        (layout.rebind position field).build =
          .error (.rebindOverflow layout.name field.name position field.bits)) ∧
    ∀ derived, (layout.rebind position field).build = .ok derived →
      layout.Rebound position field derived := by
  refine ⟨⟨?_, ?_⟩, h.sound.build_rebind_eq_notFound, ?_, ?_⟩
  · rintro ⟨derived, hbuild⟩
    obtain ⟨before, run, after, htarget, hroom⟩ := h.sound.exists_room_of_rebind hbuild
    rw [htarget.build_rebind_eq h.sound hroom] at hbuild
    refine ⟨before, run, after, htarget, hroom, ?_⟩
    exact (htarget.exists_freeze_iff h.sound hroom hwide _ _).mp ⟨derived, hbuild⟩
  · rintro ⟨before, run, after, htarget, hroom, hlegal⟩
    rw [htarget.build_rebind_eq h.sound hroom]
    exact (htarget.exists_freeze_iff h.sound hroom hwide _ _).mpr hlegal
  · intro before run after htarget hshort
    exact htarget.build_rebind_eq_overflow h.sound hshort
  · intro derived hbuild
    obtain ⟨before, run, after, htarget, hroom⟩ := h.sound.exists_room_of_rebind hbuild
    rw [htarget.build_rebind_eq h.sound hroom] at hbuild
    exact htarget.rebound_of_freeze h hroom hbuild

namespace Sample

/-- The structure that the frame keeps bits free for. -/
def pairField : Field :=
  { name := "pair", type := .record pairLayout, mode := .optional, enabledBy := some "gate" }

/-- The pair goes into the free bits of the frame from the third one on; five bits further there is
no room for it, and the gate in front is not free at all. -/
theorem rebind_frameLayout :
    frameLayout.Built ∧ 0 < pairField.bits ∧
      (∃ derived, (frameLayout.rebind ⟨3⟩ pairField).build = .ok derived ∧
        frameLayout.Rebound ⟨3⟩ pairField derived) ∧
      (frameLayout.rebind ⟨8⟩ pairField).build =
        .error (.rebindOverflow "frame" "pair" ⟨8⟩ 11) ∧
      (frameLayout.rebind ⟨0⟩ pairField).build =
        .error (.rebindTargetNotFound "frame" "pair" ⟨0⟩) := by
  have hwide : 0 < pairField.bits := by decide
  obtain ⟨_, _, _, heffect⟩ := built_frameLayout.rebind_exact ⟨3⟩ pairField hwide
  obtain ⟨_, _, hoverflow, _⟩ := built_frameLayout.rebind_exact ⟨8⟩ pairField hwide
  obtain ⟨_, hmissing, _, _⟩ := built_frameLayout.rebind_exact ⟨0⟩ pairField hwide
  have hrun : frameLayout.Target ⟨8⟩ [⟨.enable { name := "gate", field := some "pair" }, ⟨0⟩, none⟩]
      ⟨.reserved { bits := 14 }, ⟨1⟩, none⟩ [] := ⟨rfl, rfl, by decide, by decide⟩
  have hnone : ∀ before run after, ¬ frameLayout.Target ⟨0⟩ before run after := by
    intro before run after htarget
    have hmem : run ∈ frameLayout.slots := by
      rw [htarget.slots]
      exact List.mem_append_right _ List.mem_cons_self
    rcases List.mem_pair.mp hmem with rfl | rfl
    · exact absurd htarget.reserved (by decide)
    · exact absurd htarget.start_le (by decide)
  exact ⟨built_frameLayout, hwide, ⟨_, rfl, heffect _ rfl⟩, hoverflow _ _ _ hrun (by decide),
    hmissing hnone⟩

end Sample

end Layout
end RadioPacket
