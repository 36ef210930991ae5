import RadioPacket.Proofs.Layout.Linking

/-!
# Layouts that can be built

A layout comes from a blueprint that starts empty or from the items of a layout built before, and
the structures inside its fields were built before as well.  This module derives, from what one
build does, the facts that hold of every such layout, and gives the induction over the structures
nested in it.
-/

namespace RadioPacket

namespace Blueprint

/-- The check of items passes when they have bits and their names are new and distinct. -/
theorem checkItems_eq_ok {layout : String} {seen : List String} {items : List Item} :
    checkItems layout seen items = .ok () ↔
      (∀ item ∈ items, 0 < item.bits) ∧ (items.filterMap Item.name?).Nodup ∧
        ∀ name ∈ seen, name ∉ items.filterMap Item.name? := by
  induction items generalizing seen with
  | nil => simp [checkItems]
  | cons item items ih =>
      rw [checkItems, List.forall_mem_cons]
      by_cases hbits : item.bits = 0
      · simp [hbits]
      have hpos : 0 < item.bits := Nat.pos_of_ne_zero hbits
      simp only [if_neg hbits, hpos, true_and]
      cases hname : item.name? with
      | none =>
          rw [List.filterMap_cons_none hname]
          exact ih
      | some name =>
          rw [List.filterMap_cons_some hname, List.nodup_cons]
          by_cases hseen : name ∈ seen
          · simp only [if_pos hseen]
            constructor
            · intro h
              cases h
            · rintro ⟨_, _, hfresh⟩
              exact absurd List.mem_cons_self (hfresh name hseen)
          · simp only [if_neg hseen, ih]
            constructor
            · rintro ⟨hwide, hnodup, hfresh⟩
              refine ⟨hwide, ⟨hfresh name List.mem_cons_self, hnodup⟩, ?_⟩
              intro other hother
              rw [List.mem_cons, not_or]
              refine ⟨?_, hfresh other (List.mem_cons_of_mem name hother)⟩
              rintro rfl
              exact hseen hother
            · rintro ⟨hwide, ⟨hnew, hnodup⟩, hfresh⟩
              refine ⟨hwide, hnodup, List.forall_mem_cons.mpr ⟨hnew, ?_⟩⟩
              intro other hother hmem
              exact hfresh other hother (List.mem_cons_of_mem name hmem)

/-- A build succeeds when placing and freezing do and no warning forbids the layout. -/
theorem build_iff {blueprint : Blueprint} {layout : Layout} :
    blueprint.build = .ok layout ↔
      (∃ placed, blueprint.place = .ok placed ∧
        freeze blueprint.name placed blueprint.dynamicSize = .ok layout) ∧
        blueprint.objection? layout = none := by
  rw [build, draft, Fallible.bind_eq_ok]
  simp only [Fallible.bind_eq_ok]
  constructor
  · rintro ⟨drafted, ⟨placed, hplaced, hfreeze⟩, hrest⟩
    split at hrest
    · cases hrest
    · next hobjection =>
        cases hrest
        exact ⟨⟨placed, hplaced, hfreeze⟩, hobjection⟩
  · rintro ⟨⟨placed, hplaced, hfreeze⟩, hobjection⟩
    refine ⟨layout, ⟨placed, hplaced, hfreeze⟩, ?_⟩
    rw [hobjection]
    rfl

theorem build_eq_ok {blueprint : Blueprint} {layout : Layout}
    (h : blueprint.build = .ok layout) :
    ∃ placed resolved, blueprint.place = .ok placed ∧
      checkItems blueprint.name [] placed = .ok () ∧
      Linkage.resolve blueprint.name placed = .ok resolved ∧
      layout.slots = Linkage.slots resolved ∧ layout.bits = Item.totalBits placed := by
  obtain ⟨⟨placed, hplaced, hfreeze⟩, _⟩ := build_iff.mp h
  obtain ⟨_, hcheck, hlinked⟩ := Fallible.bind_eq_ok.mp hfreeze
  obtain ⟨resolved, hresolved, hlayout⟩ := Fallible.bind_eq_ok.mp hlinked
  cases hlayout
  exact ⟨placed, resolved, hplaced, hcheck, hresolved, rfl, rfl⟩

end Blueprint

/-- The structure inside the field of a step. -/
def Step.record? (step : Step) : Option Layout := step.item.record?

namespace Layout

/-- The items of a layout, without their places. -/
def items (layout : Layout) : List Item := layout.slots.map Slot.item

/-- The layouts that builds give, started afresh or from a built layout. -/
inductive Built : Layout → Prop where
  | fresh {blueprint : Blueprint} {layout : Layout} :
      blueprint.base = [] →
      (∀ step ∈ blueprint.steps, ∀ inner, step.record? = some inner → Built inner) →
      blueprint.build = .ok layout → Built layout
  | derived {blueprint : Blueprint} {base layout : Layout} :
      Built base → blueprint.base = base.items →
      (∀ step ∈ blueprint.steps, ∀ inner, step.record? = some inner → Built inner) →
      blueprint.build = .ok layout → Built layout

/-- What a build establishes about its layout. -/
structure Sound (layout : Layout) : Prop where
  tile : Slot.Tile 0 layout.slots
  total : Item.totalBits layout.items = layout.bits
  bits_le : layout.bits ≤ maxBits
  wide : ∀ item ∈ layout.items, 0 < item.bits
  gates : ∀ item ∈ layout.items, item.GateFits
  names : (layout.items.filterMap Item.name?).Nodup
  links : ∀ slot ∈ layout.slots, slot.link = Linkage.partner? layout.items slot.item
  parts : ∀ item ∈ layout.items, ∀ inner, item.record? = some inner → Built inner

namespace Sound

variable {layout : Layout} {slot : Slot}

theorem bits_pos (h : layout.Sound) (hslot : slot ∈ layout.slots) : 0 < slot.bits :=
  h.wide slot.item (List.mem_map_of_mem hslot)

theorem gateFits (h : layout.Sound) (hslot : slot ∈ layout.slots) : slot.item.GateFits :=
  h.gates slot.item (List.mem_map_of_mem hslot)

theorem built_of_record? (h : layout.Sound) (hslot : slot ∈ layout.slots) {inner : Layout}
    (hinner : slot.item.record? = some inner) : inner.Built :=
  h.parts slot.item (List.mem_map_of_mem hslot) inner hinner

end Sound

/-- A build is sound if its base is short enough, has legal gates and holds built structures. -/
theorem sound_of_build {blueprint : Blueprint} {layout : Layout}
    (h : blueprint.build = .ok layout)
    (hsteps : ∀ step ∈ blueprint.steps, ∀ inner, step.record? = some inner → Built inner)
    (hbits : Item.totalBits blueprint.base ≤ maxBits)
    (hgates : ∀ item ∈ blueprint.base, item.GateFits)
    (hparts : ∀ item ∈ blueprint.base, ∀ inner, item.record? = some inner → Built inner) :
    layout.Sound := by
  obtain ⟨placed, resolved, hplaced, hcheck, hresolved, hslots, hlength⟩ :=
    Blueprint.build_eq_ok h
  obtain ⟨hwide, hnames, _⟩ := Blueprint.checkItems_eq_ok.mp hcheck
  have hitems : layout.items = resolved := by rw [items, hslots, Linkage.map_item_slots]
  have huntied := Linkage.resolve_untied hresolved
  constructor
  · rw [hslots]
    exact Linkage.tile_slotsFrom resolved .start resolved
  · rw [hitems, hlength]
    exact Item.totalBits_congr huntied
  · rw [hlength]
    exact Blueprint.totalBits_le_of_place hplaced hbits
  · rw [hitems]
    exact Item.forall_mem_of_untied huntied (fun item => by rw [Item.bits_untied]) hwide
  · rw [hitems]
    apply Item.forall_mem_of_untied huntied Item.gateFits_untied
    exact Blueprint.forall_mem_of_place hplaced hgates (fun _ _ hgate => hgate) fun _ => trivial
  · rw [hitems, Item.filterMap_name?_congr huntied]
    exact hnames
  · intro slot hslot
    rw [hitems]
    rw [hslots] at hslot
    exact Linkage.link_of_mem_slotsFrom hslot
  · rw [hitems]
    apply Item.forall_mem_of_untied
      (P := fun item => ∀ inner, item.record? = some inner → Built inner) huntied
    · intro item
      rw [Item.record?_untied]
    apply Blueprint.forall_mem_of_place
      (P := fun item => ∀ inner, item.record? = some inner → Built inner) hplaced hparts
    · intro step hstep _
      exact hsteps step hstep
    · intro run inner hinner
      cases hinner

/-- Every built layout is sound, however often it was derived. -/
theorem Built.sound {layout : Layout} (h : layout.Built) : layout.Sound := by
  induction h with
  | fresh hbase hsteps hbuild _ =>
      apply sound_of_build hbuild hsteps
      · simp [hbase, Item.totalBits]
      · simp [hbase]
      · simp [hbase]
  | derived _ hbase hsteps hbuild ih _ =>
      apply sound_of_build hbuild hsteps
      · rw [hbase, ih.total]
        exact ih.bits_le
      · rw [hbase]
        exact ih.gates
      · rw [hbase]
        exact ih.parts

theorem sizeOf_lt_of_record? {layout inner : Layout} {slot : Slot} (hslot : slot ∈ layout.slots)
    (hinner : slot.item.record? = some inner) : sizeOf inner < sizeOf layout := by
  have hslots : sizeOf slot < sizeOf layout.slots := List.sizeOf_lt_of_mem hslot
  have hlayout : sizeOf layout.slots < sizeOf layout := by
    cases layout
    simp
    omega
  have hitem : sizeOf inner < sizeOf slot := by
    obtain ⟨item, position, link⟩ := slot
    rcases item with ⟨name, type, mode, enabledBy, editable, bit⟩ | gate | run
    · cases type with
      | leaf _ => cases hinner
      | record _ =>
          cases hinner
          simp
          omega
    · cases hinner
    · cases hinner
  omega

/-- Induction over built layouts: what passes from the structures inside the fields of a layout to
the layout holds of all built layouts. -/
@[elab_as_elim] theorem Built.induct {P : Layout → Prop} {layout : Layout} (h : layout.Built)
    (step : ∀ layout, layout.Built →
      (∀ slot ∈ layout.slots, ∀ inner, slot.item.record? = some inner → P inner) → P layout) :
    P layout := by
  have hparts : ∀ slot ∈ layout.slots, ∀ inner, slot.item.record? = some inner → P inner := by
    intro slot hslot inner hinner
    -- The parts of a built layout are built as well, and they are smaller than it.
    have hlt : sizeOf inner < sizeOf layout := sizeOf_lt_of_record? hslot hinner
    exact Built.induct (h.sound.built_of_record? hslot hinner) step
  exact step layout h hparts
termination_by sizeOf layout

end Layout

end RadioPacket
