import RadioPacket.Proofs.Layout.PartialTie

/-!
# Settled items

Resolved items are settled: the two sides of each pair name each other, and nothing else names
anything of the structure.  Tying settled items again changes nothing, and what becomes of an item
depends on the other items but not on their order.
-/

namespace RadioPacket

namespace Linkage

variable {items others : List Item}

/-- The two sides of each pair name each other, and every name is accounted for. -/
structure Settled (items : List Item) : Prop where
  agree : ∀ {enable field}, Pairs items enable field →
    field.enabledBy = some enable.name ∧ enable.field = some field.name
  known : ∀ {field name}, Item.field field ∈ items → field.enabledBy = some name →
    ∃ enable, Pairs items enable field ∧ enable.name = name
  aimed : ∀ {enable}, Item.enable enable ∈ items → ∃ name, enable.field = some name

section Tie

variable (h : Coherent items) {enable : Enable} {field : Field}

include h

theorem Coherent.open_of_unpaired (hfield : Item.field field ∈ items)
    (hnone : ¬ ∃ enable, Pairs items enable field) : field.enabledBy = none := by
  by_contra hgated
  obtain ⟨name, hname⟩ := Option.ne_none_iff_exists'.mp hgated
  obtain ⟨enable, henable, rfl⟩ := h.known hfield hname
  exact hnone ⟨enable, henable, hfield, .inl hname⟩

theorem Coherent.enabledBy_tieField (hpair : Pairs items enable field) :
    (tieField items field).enabledBy = some enable.name := by
  cases hgate : field.enabledBy with
  | none =>
      rw [h.tieField_eq hpair hgate]
      rfl
  | some name =>
      obtain ⟨other, hother, rfl⟩ := h.known hpair.2.1 hgate
      rw [h.tieField_gated hpair.2.1 hgate, h.enable_eq hpair ⟨hother, hpair.2.1, .inl hgate⟩]
      exact hgate

theorem Coherent.settled_tie (hnames : (items.filterMap Item.name?).Nodup) :
    Settled (items.map (tie items)) := by
  constructor
  · intro _ _ hpair
    obtain ⟨enable, field, hdeclared, rfl, rfl⟩ := h.partialTie.exists_pairs hnames hpair
    rw [h.enabledBy_tieField hdeclared, h.tieEnable_eq hdeclared,
      h.partialTie.name_onField hdeclared.2.1]
    exact ⟨rfl, rfl⟩
  · intro _ name hfield hname
    obtain ⟨field, hdeclared, rfl⟩ := Item.mem_map_field.mp hfield
    by_cases hpaired : ∃ enable, Pairs items enable field
    · obtain ⟨enable, hpair⟩ := hpaired
      refine ⟨tieEnable items enable, h.partialTie.pairs hpair, ?_⟩
      rw [h.partialTie.name_onEnable hpair.1]
      exact Option.some.inj ((h.enabledBy_tieField hpair).symm.trans hname)
    · rw [tieField_eq_self hdeclared (not_exists.mp hpaired)] at hname
      cases hname.symm.trans (h.open_of_unpaired hdeclared hpaired)
  · intro _ henable
    obtain ⟨enable, hdeclared, rfl⟩ := Item.mem_map_enable.mp henable
    by_cases hpaired : ∃ field, Pairs items enable field
    · obtain ⟨field, hpair⟩ := hpaired
      exact ⟨field.name, by rw [h.tieEnable_eq hpair]⟩
    · rw [tieEnable_eq_self hdeclared (not_exists.mp hpaired), ← Option.ne_none_iff_exists']
      intro hnone
      obtain ⟨field, hfield, hclaim⟩ := h.claimed hdeclared hnone
      exact hpaired ⟨field, hdeclared, hfield, .inl hclaim⟩

end Tie

/-! ## The order of the items -/

theorem Coherent.congr (hmem : ∀ item, item ∈ items ↔ item ∈ others) (h : Coherent items) :
    Coherent others := by
  have hpairs : ∀ {enable field}, Pairs others enable field → Pairs items enable field := by
    rintro enable field ⟨henable, hfield, hnamed⟩
    exact ⟨(hmem _).mpr henable, (hmem _).mpr hfield, hnamed⟩
  constructor
  · intro enable f g hf hg
    exact h.field_eq (hpairs hf) (hpairs hg)
  · intro d e field hd he
    exact h.enable_eq (hpairs hd) (hpairs he)
  · intro field name hfield hname
    obtain ⟨enable, henable, hfound⟩ := h.known ((hmem _).mpr hfield) hname
    exact ⟨enable, (hmem _).mp henable, hfound⟩
  · intro enable field hpair hclaim
    exact h.agrees (hpairs hpair) hclaim
  · intro enable henable hnone
    obtain ⟨field, hfield, hclaim⟩ := h.claimed ((hmem _).mpr henable) hnone
    exact ⟨field, (hmem _).mp hfield, hclaim⟩

/-- What becomes of an item does not depend on the order of the items. -/
theorem Coherent.tie_congr (hmem : ∀ item, item ∈ items ↔ item ∈ others) (h : Coherent items)
    {item : Item} (hitem : item ∈ items) : tie items item = tie others item := by
  have hother := h.congr hmem
  have hpairs : ∀ {enable field}, Pairs items enable field ↔ Pairs others enable field := by
    intro enable field
    rw [Pairs, Pairs, hmem, hmem]
  cases item with
  | reserved _ => rfl
  | enable enable =>
      apply congrArg Item.enable
      by_cases hpaired : ∃ field, Pairs items enable field
      · obtain ⟨field, hpair⟩ := hpaired
        rw [h.tieEnable_eq hpair, hother.tieEnable_eq (hpairs.mp hpair)]
      · have hnone := not_exists.mp hpaired
        rw [tieEnable_eq_self hitem hnone, tieEnable_eq_self ((hmem _).mp hitem)
          fun field hpair => hnone field (hpairs.mpr hpair)]
  | field field =>
      apply congrArg Item.field
      by_cases hpaired : ∃ enable, Pairs items enable field
      · obtain ⟨enable, hpair⟩ := hpaired
        cases hgate : field.enabledBy with
        | none => rw [h.tieField_eq hpair hgate, hother.tieField_eq (hpairs.mp hpair) hgate]
        | some name =>
            rw [h.tieField_gated hitem hgate, hother.tieField_gated ((hmem _).mp hitem) hgate]
      · have hnone := not_exists.mp hpaired
        rw [tieField_eq_self hitem hnone, tieField_eq_self ((hmem _).mp hitem)
          fun enable hpair => hnone enable (hpairs.mpr hpair)]

end Linkage

end RadioPacket
