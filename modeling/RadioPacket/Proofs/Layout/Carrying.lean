import RadioPacket.Proofs.Layout.Linking

/-!
# What the steps carry along

Steps look at widths and at which items are reserved, and at nothing else of the items that stand
already.  So they do the same to items whose ties have been changed, and they carry every field and
enable along.
-/

namespace RadioPacket

namespace Item

/-- The items of a list that are fields or enables. -/
def solid (items : List Item) : List Item := items.filter fun item => !item.isReserved

theorem mem_solid {items : List Item} {item : Item} :
    item ∈ solid items ↔ item ∈ items ∧ item.isReserved = false := by
  simp [solid]

theorem exists_name?_of_solid {item : Item} (h : item.isReserved = false) :
    ∃ name, item.name? = some name := by
  cases item with
  | field f => exact ⟨f.name, rfl⟩
  | enable e => exact ⟨e.name, rfl⟩
  | reserved _ => cases h

@[simp] theorem solid_append (items others : List Item) :
    solid (items ++ others) = solid items ++ solid others := List.filter_append ..

@[simp] theorem solid_reserved_cons (run : Reserved) (items : List Item) :
    solid (.reserved run :: items) = solid items := rfl

@[simp] theorem solid_field_cons (field : Field) (items : List Item) :
    solid (.field field :: items) = .field field :: solid items := rfl

@[simp] theorem solid_reservedRun (bits : Nat) : solid (reservedRun bits) = [] := by
  rw [solid, List.filter_eq_nil_iff]
  intro item hitem
  obtain ⟨run, rfl⟩ := eq_reserved_of_mem_reservedRun hitem
  simp [isReserved]

@[simp] theorem isReserved_untied (item : Item) : item.untied.isReserved = item.isReserved := by
  cases item <;> rfl

@[simp] theorem kind_untied (item : Item) : item.untied.kind = item.kind := by
  cases item <;> rfl

@[simp] theorem maxBits_untied (item : Item) : item.untied.maxBits = item.maxBits := by
  cases item <;> rfl

theorem untied_eq_reserved {item : Item} {run : Reserved} (h : item.untied = .reserved run) :
    item = .reserved run := by
  cases item with
  | field _ => cases h
  | enable _ => cases h
  | reserved _ => exact h

/-! ## Placing tied items -/

section Tying

variable {change : Item → Item} (hchange : ∀ item, (change item).untied = item.untied)

include hchange

theorem change_reserved (run : Reserved) : change (.reserved run) = .reserved run :=
  untied_eq_reserved (hchange _)

theorem bits_change (item : Item) : (change item).bits = item.bits := by
  rw [← bits_untied, hchange, bits_untied]

theorem name?_change (item : Item) : (change item).name? = item.name? := by
  rw [← name?_untied, hchange, name?_untied]

theorem kind_change (item : Item) : (change item).kind = item.kind := by
  rw [← kind_untied, hchange, kind_untied]

theorem maxBits_change (item : Item) : (change item).maxBits = item.maxBits := by
  rw [← maxBits_untied, hchange, maxBits_untied]

theorem isReserved_change (item : Item) : (change item).isReserved = item.isReserved := by
  rw [← isReserved_untied, hchange, isReserved_untied]

theorem map_untied_change (items : List Item) :
    (items.map change).map untied = items.map untied := by
  rw [List.map_map]
  exact List.map_congr_left fun item _ => hchange item

theorem map_reservedRun (bits : Nat) : (reservedRun bits).map change = reservedRun bits := by
  unfold reservedRun
  split
  · rfl
  · rw [List.map_singleton, change_reserved hchange]

theorem cutAt?_map (items : List Item) (offset : Nat) :
    cutAt? (items.map change) offset =
      (cutAt? items offset).map fun cut =>
        ⟨cut.before.map change, change cut.item, cut.inner, cut.after.map change⟩ := by
  induction items generalizing offset with
  | nil => rfl
  | cons item items ih =>
      rw [List.map_cons, cutAt?, cutAt?, bits_change hchange]
      by_cases hinside : offset < item.bits
      · rw [if_pos hinside, if_pos hinside]
        rfl
      · rw [if_neg hinside, if_neg hinside, ih, Option.map_map, Option.map_map]
        rfl

end Tying

end Item

namespace Blueprint

section Tying

variable {change : Item → Item} (hchange : ∀ item, (change item).untied = item.untied)

include hchange

theorem placeItem_map (item : Item) (placed : List Item) :
    placeItem (placed.map change) (change item) =
      (placeItem placed item).map (List.map change) := by
  have htotal : Item.totalBits (placed.map change) = Item.totalBits placed :=
    Item.totalBits_congr (Item.map_untied_change hchange placed)
  rw [placeItem, placeItem, htotal, Item.bits_change hchange, Item.maxBits_change hchange,
    Item.kind_change hchange]
  by_cases hlimits : item.bits ≤ item.maxBits ∧
      Item.totalBits placed + item.bits ≤ Layout.maxBits
  · rw [if_pos hlimits, if_pos hlimits, Except.map, List.map_append, List.map_singleton]
  · rw [if_neg hlimits, if_neg hlimits, Except.map]

theorem placeRebound_map {layout : String} {field changed : Field}
    (hfield : change (.field field) = .field changed) (placed : List Item) (position : Position) :
    placeRebound layout (placed.map change) position changed =
      (placeRebound layout placed position field).map (List.map change) := by
  have hbits : changed.bits = field.bits := by
    have hitem := Item.bits_change hchange (.field field)
    rwa [hfield] at hitem
  have hname : changed.name = field.name := by
    have hitem := Item.name?_change hchange (.field field)
    rw [hfield] at hitem
    exact Option.some.inj hitem
  rw [placeRebound, placeRebound, Item.cutAt?_map hchange, hbits, hname]
  cases Item.cutAt? placed position.offset with
  | none => rfl
  | some cut =>
      obtain ⟨before, item, inner, after⟩ := cut
      cases item with
      | reserved run =>
          simp only [Option.map_some, Item.change_reserved hchange]
          by_cases hfits : run.bits < inner + field.bits
          · rw [if_pos hfits, if_pos hfits, Except.map]
          · rw [if_neg hfits, if_neg hfits, Except.map]
            simp only [List.map_append, List.map_singleton, hfield,
              Item.map_reservedRun hchange]
      | field other =>
          have hkept := Item.isReserved_change hchange (.field other)
          cases hother : change (.field other) with
          | field _ => simp [hother, Except.map]
          | enable _ => simp [hother, Except.map]
          | reserved _ => simp [hother, Item.isReserved] at hkept
      | enable other =>
          have hkept := Item.isReserved_change hchange (.enable other)
          cases hother : change (.enable other) with
          | field _ => simp [hother, Except.map]
          | enable _ => simp [hother, Except.map]
          | reserved _ => simp [hother, Item.isReserved] at hkept

/-- Steps that bring in other items do the same to tied items as to the items before. -/
theorem place_map {layout : String} {steps : List Step}
    (hsteps : ∀ step ∈ steps, change step.item = step.item) (placed : List Item) :
    steps.foldlM (placeStep layout) (placed.map change) =
      (steps.foldlM (placeStep layout) placed).map (List.map change) := by
  apply Fallible.foldlM_map
  intro step hstep old
  cases step with
  | append item =>
      have hitem : change item = item := hsteps _ hstep
      have hplace := placeItem_map hchange item old
      rwa [hitem] at hplace
  | rebind position field => exact placeRebound_map hchange (hsteps _ hstep) old position

end Tying

theorem placeStep_eq_ok_congr {layout other : String} {placed next : List Item} {step : Step} :
    placeStep layout placed step = .ok next ↔ placeStep other placed step = .ok next := by
  cases step with
  | append item => rfl
  | rebind position field =>
      simp only [placeStep, placeRebound]
      split
      · split
        · simp
        · rfl
      · simp

/-- A step keeps the fields and enables and adds its own. -/
theorem solid_perm_of_placeStep {layout : String} {placed next : List Item} {step : Step}
    (h : placeStep layout placed step = .ok next) :
    (Item.solid next).Perm (Item.solid placed ++ Item.solid [step.item]) := by
  cases step with
  | append item =>
      obtain ⟨_, _, rfl⟩ := placeItem_eq_ok.mp h
      rw [Item.solid_append]
      rfl
  | rebind position field =>
      obtain ⟨before, run, inner, after, rfl, _, _, rfl⟩ := placeRebound_eq_ok h
      have hfield : Item.solid [(Step.rebind position field).item] = [.field field] := rfl
      simp only [Item.solid_append, Item.solid_reservedRun, Item.solid_field_cons,
        Item.solid_reserved_cons, List.append_assoc, hfield]
      exact (List.perm_append_singleton _ _).symm.append_left _

theorem solid_perm_of_place {layout : String} {steps : List Step} {base placed : List Item}
    (h : steps.foldlM (placeStep layout) base = .ok placed) :
    (Item.solid placed).Perm (Item.solid base ++ Item.solid (steps.map Step.item)) := by
  induction steps generalizing base with
  | nil =>
      cases h
      simp [Item.solid]
  | cons step steps ih =>
      rw [List.foldlM_cons, Fallible.bind_eq_ok] at h
      obtain ⟨next, hnext, hrest⟩ := h
      have hall : Item.solid ((step :: steps).map Step.item) =
          Item.solid [step.item] ++ Item.solid (steps.map Step.item) :=
        Item.solid_append [step.item] (steps.map Step.item)
      rw [hall, ← List.append_assoc]
      exact (ih hrest).trans ((solid_perm_of_placeStep hnext).append_right _)

section Solid

variable {layout : String} {steps : List Step} {base placed : List Item}

theorem mem_of_place (h : steps.foldlM (placeStep layout) base = .ok placed) {item : Item}
    (hitem : item ∈ base) (hsolid : item.isReserved = false) : item ∈ placed := by
  have hmem : item ∈ Item.solid base ++ Item.solid (steps.map Step.item) :=
    List.mem_append_left _ (Item.mem_solid.mpr ⟨hitem, hsolid⟩)
  exact (Item.mem_solid.mp ((solid_perm_of_place h).mem_iff.mpr hmem)).1

theorem mem_of_place_step (h : steps.foldlM (placeStep layout) base = .ok placed) {step : Step}
    (hstep : step ∈ steps) (hsolid : step.item.isReserved = false) : step.item ∈ placed := by
  have hmem : step.item ∈ Item.solid base ++ Item.solid (steps.map Step.item) :=
    List.mem_append_right _ (Item.mem_solid.mpr ⟨List.mem_map_of_mem hstep, hsolid⟩)
  exact (Item.mem_solid.mp ((solid_perm_of_place h).mem_iff.mpr hmem)).1

/-- When the placed items have distinct names, what the steps bring in has other names than what
was there before. -/
theorem fresh_of_place (h : steps.foldlM (placeStep layout) base = .ok placed)
    (hnames : (placed.filterMap Item.name?).Nodup) {step : Step} (hstep : step ∈ steps)
    (hnew : step.item.isReserved = false) {item : Item} (hitem : item ∈ base)
    (hold : item.isReserved = false) : item.name? ≠ step.item.name? := by
  have hsolid : ((Item.solid placed).filterMap Item.name?).Nodup :=
    hnames.sublist (List.filter_sublist.filterMap _)
  rw [((solid_perm_of_place h).filterMap _).nodup_iff, List.filterMap_append,
    List.nodup_append] at hsolid
  obtain ⟨_, _, hdisjoint⟩ := hsolid
  intro heq
  obtain ⟨name, hname⟩ := Item.exists_name?_of_solid hold
  have hfirst : name ∈ (Item.solid base).filterMap Item.name? :=
    List.mem_filterMap.mpr ⟨item, Item.mem_solid.mpr ⟨hitem, hold⟩, hname⟩
  have hsecond : name ∈ (Item.solid (steps.map Step.item)).filterMap Item.name? :=
    List.mem_filterMap.mpr
      ⟨step.item, Item.mem_solid.mpr ⟨List.mem_map_of_mem hstep, hnew⟩, heq ▸ hname⟩
  exact hdisjoint name hfirst name hsecond rfl

end Solid

end Blueprint

end RadioPacket
