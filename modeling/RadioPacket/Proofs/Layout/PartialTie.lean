import RadioPacket.Proofs.Layout.Pairing

/-!
# Items that are tied in part

A declaration may write the names of a pair on one side or on both, and freezing writes some of
them before an extension is linked.  As long as an item only gets the names that its pair calls
for, the pairs stay the same, so linking succeeds on the changed items exactly when it does on the
old ones, and makes the same of both.
-/

namespace RadioPacket

namespace Linkage

variable {items : List Item} {onEnable : Enable → Enable} {onField : Field → Field}

/-- Each enable and each field is left alone, or gets the name that its pair calls for. -/
structure PartialTie (items : List Item) (onEnable : Enable → Enable)
    (onField : Field → Field) : Prop where
  enable_cases : ∀ {enable}, Item.enable enable ∈ items → onEnable enable = enable ∨
    ∃ field, Pairs items enable field ∧ (enable.field = none ∨ enable.field = some field.name) ∧
      onEnable enable = { enable with field := some field.name }
  field_cases : ∀ {field}, Item.field field ∈ items → onField field = field ∨
    ∃ enable, Pairs items enable field ∧ field.enabledBy = none ∧
      onField field = field.gatedBy enable.name

namespace PartialTie

variable (h : PartialTie items onEnable onField) {enable : Enable} {field : Field}

include h

theorem name_onEnable (henable : Item.enable enable ∈ items) :
    (onEnable enable).name = enable.name := by
  rcases h.enable_cases henable with hkept | ⟨_, _, _, hchange⟩
  · rw [hkept]
  · rw [hchange]

theorem name_onField (hfield : Item.field field ∈ items) :
    (onField field).name = field.name := by
  rcases h.field_cases hfield with hkept | ⟨_, _, _, hchange⟩
  · rw [hkept]
  · rw [hchange]
    rfl

theorem onField_gated {name : String} (hfield : Item.field field ∈ items)
    (hgated : field.enabledBy = some name) : onField field = field := by
  rcases h.field_cases hfield with hkept | ⟨_, _, hopen, _⟩
  · exact hkept
  · cases hopen.symm.trans hgated

theorem onEnable_open (henable : Item.enable enable ∈ items)
    (hopen : (onEnable enable).field = none) : onEnable enable = enable := by
  rcases h.enable_cases henable with hkept | ⟨_, _, _, hchange⟩
  · exact hkept
  · rw [hchange] at hopen
    cases hopen

theorem onEnable_named (hpair : Pairs items enable field)
    (hnamed : enable.field = some field.name) : onEnable enable = enable := by
  rcases h.enable_cases hpair.1 with hkept | ⟨other, hother, hfits, hchange⟩
  · exact hkept
  · rcases hfits with hnone | hsame
    · cases hnamed.symm.trans hnone
    · rw [hchange, ← hsame]

theorem pairs (hpair : Pairs items enable field) :
    Pairs (items.map (Item.mapTies onEnable onField)) (onEnable enable) (onField field) := by
  refine ⟨Item.mem_map_enable.mpr ⟨_, hpair.1, rfl⟩, Item.mem_map_field.mpr ⟨_, hpair.2.1, rfl⟩, ?_⟩
  rw [h.name_onEnable hpair.1, h.name_onField hpair.2.1]
  rcases hpair.2.2 with hclaim | hnamed
  · rw [h.onField_gated hpair.2.1 hclaim]
    exact .inl hclaim
  · rw [h.onEnable_named hpair hnamed]
    exact .inr hnamed

theorem exists_pairs (hnames : (items.filterMap Item.name?).Nodup)
    (hpair : Pairs (items.map (Item.mapTies onEnable onField)) enable field) :
    ∃ d f, Pairs items d f ∧ onEnable d = enable ∧ onField f = field := by
  obtain ⟨d, hd, rfl⟩ := Item.mem_map_enable.mp hpair.1
  obtain ⟨f, hf, rfl⟩ := Item.mem_map_field.mp hpair.2.1
  refine ⟨d, f, ?_, rfl, rfl⟩
  have hnamed := hpair.2.2
  rw [h.name_onEnable hd, h.name_onField hf] at hnamed
  rcases hnamed with hclaim | hnamed
  · rcases h.field_cases hf with hkept | ⟨other, hother, _, hchange⟩
    · rw [hkept] at hclaim
      exact ⟨hd, hf, .inl hclaim⟩
    · rw [hchange] at hclaim
      obtain rfl := enable_eq_of_name hnames hother.1 hd (Option.some.inj hclaim)
      exact hother
  · rcases h.enable_cases hd with hkept | ⟨other, hother, _, hchange⟩
    · rw [hkept] at hnamed
      exact ⟨hd, hf, .inr hnamed⟩
    · rw [hchange] at hnamed
      obtain rfl := field_eq_of_name hnames hother.2.1 hf (Option.some.inj hnamed)
      exact hother

theorem enable_inj (hnames : (items.filterMap Item.name?).Nodup) {d e : Enable}
    (hd : Item.enable d ∈ items) (he : Item.enable e ∈ items) (heq : onEnable d = onEnable e) :
    d = e := by
  apply enable_eq_of_name hnames hd he
  rw [← h.name_onEnable hd, heq, h.name_onEnable he]

theorem field_inj (hnames : (items.filterMap Item.name?).Nodup) {f g : Field}
    (hf : Item.field f ∈ items) (hg : Item.field g ∈ items) (heq : onField f = onField g) :
    f = g := by
  apply field_eq_of_name hnames hf hg
  rw [← h.name_onField hf, heq, h.name_onField hg]

/-- If the pairs are a matching afterwards, they were one before. -/
theorem coherent_of_map (hnames : (items.filterMap Item.name?).Nodup)
    (hcoherent : Coherent (items.map (Item.mapTies onEnable onField))) : Coherent items := by
  constructor
  · intro enable f g hf hg
    have heq := hcoherent.field_eq (h.pairs hf) (h.pairs hg)
    exact h.field_inj hnames hf.2.1 hg.2.1 heq
  · intro d e field hd he
    have heq := hcoherent.enable_eq (h.pairs hd) (h.pairs he)
    exact h.enable_inj hnames hd.1 he.1 heq
  · intro field name hfield hname
    have hmem : Item.field field ∈ items.map (Item.mapTies onEnable onField) :=
      Item.mem_map_field.mpr ⟨field, hfield, h.onField_gated hfield hname⟩
    obtain ⟨_, henable, rfl⟩ := hcoherent.known hmem hname
    obtain ⟨enable, hdeclared, rfl⟩ := Item.mem_map_enable.mp henable
    exact ⟨enable, hdeclared, (h.name_onEnable hdeclared).symm⟩
  · intro enable field hpair hclaim
    have hchanged := h.pairs hpair
    rw [h.onField_gated hpair.2.1 hclaim] at hchanged
    have hagrees := hcoherent.agrees hchanged (by rw [h.name_onEnable hpair.1]; exact hclaim)
    rcases h.enable_cases hpair.1 with hkept | ⟨other, _, hfits, hchange⟩
    · rw [hkept] at hagrees
      exact hagrees
    · rw [hchange] at hagrees
      rcases hagrees with hnone | hsame
      · cases hnone
      · rw [← hsame]
        exact hfits
  · intro enable henable hnone
    rcases h.enable_cases henable with hkept | ⟨other, hother, _, _⟩
    · have hmem : Item.enable enable ∈ items.map (Item.mapTies onEnable onField) :=
        Item.mem_map_enable.mpr ⟨enable, henable, hkept⟩
      obtain ⟨_, hchanged, hclaim⟩ := hcoherent.claimed hmem hnone
      obtain ⟨field, hfield, rfl⟩ := Item.mem_map_field.mp hchanged
      rcases h.field_cases hfield with hfkept | ⟨other, hother, hopen, hchange⟩
      · rw [hfkept] at hclaim
        exact ⟨field, hfield, hclaim⟩
      · -- The field is open, so its pair would rest on the name in the enable.
        rw [hchange] at hclaim
        obtain rfl := enable_eq_of_name hnames hother.1 henable (Option.some.inj hclaim)
        rcases hother.2.2 with hgated | hnamed
        · cases hopen.symm.trans hgated
        · cases hnone.symm.trans hnamed
    · rcases hother.2.2 with hclaim | hnamed
      · exact ⟨other, hother.2.1, hclaim⟩
      · cases hnone.symm.trans hnamed

theorem coherent_map (hnames : (items.filterMap Item.name?).Nodup) (hcoherent : Coherent items) :
    Coherent (items.map (Item.mapTies onEnable onField)) := by
  constructor
  · intro enable f g hf hg
    obtain ⟨d, f, hdf, hd, rfl⟩ := h.exists_pairs hnames hf
    obtain ⟨e, g, heg, he, rfl⟩ := h.exists_pairs hnames hg
    obtain rfl := h.enable_inj hnames hdf.1 heg.1 (hd.trans he.symm)
    rw [hcoherent.field_eq hdf heg]
  · intro d e field hd he
    obtain ⟨d, f, hdf, rfl, hf⟩ := h.exists_pairs hnames hd
    obtain ⟨e, g, heg, rfl, hg⟩ := h.exists_pairs hnames he
    obtain rfl := h.field_inj hnames hdf.2.1 heg.2.1 (hf.trans hg.symm)
    rw [hcoherent.enable_eq hdf heg]
  · intro _ name hfield hname
    obtain ⟨field, hdeclared, rfl⟩ := Item.mem_map_field.mp hfield
    have hfound : ∃ enable, Item.enable enable ∈ items ∧ enable.name = name := by
      rcases h.field_cases hdeclared with hkept | ⟨enable, hpair, _, hchange⟩
      · rw [hkept] at hname
        exact hcoherent.known hdeclared hname
      · rw [hchange] at hname
        exact ⟨enable, hpair.1, Option.some.inj hname⟩
    obtain ⟨enable, henable, rfl⟩ := hfound
    exact ⟨_, Item.mem_map_enable.mpr ⟨enable, henable, rfl⟩, h.name_onEnable henable⟩
  · intro _ _ hpair hclaim
    obtain ⟨enable, field, hdeclared, rfl, rfl⟩ := h.exists_pairs hnames hpair
    rw [h.name_onField hdeclared.2.1]
    rcases h.enable_cases hdeclared.1 with hkept | ⟨other, hother, _, hchange⟩
    · rw [hkept] at hclaim ⊢
      rcases h.field_cases hdeclared.2.1 with hfkept | ⟨_, _, hopen, _⟩
      · rw [hfkept] at hclaim
        exact hcoherent.agrees hdeclared hclaim
      · refine .inr (hdeclared.2.2.resolve_left ?_)
        rw [hopen]
        nofun
    · rw [hchange, hcoherent.field_eq hother hdeclared]
      exact .inr rfl
  · intro _ henable hnone
    obtain ⟨enable, hdeclared, rfl⟩ := Item.mem_map_enable.mp henable
    have hkept := h.onEnable_open hdeclared hnone
    rw [hkept] at hnone ⊢
    obtain ⟨field, hfield, hclaim⟩ := hcoherent.claimed hdeclared hnone
    exact ⟨field, Item.mem_map_field.mpr ⟨field, hfield, h.onField_gated hfield hclaim⟩, hclaim⟩

theorem unpaired_enable (hnames : (items.filterMap Item.name?).Nodup)
    (henable : Item.enable enable ∈ items) (hnone : ∀ field, ¬ Pairs items enable field) :
    onEnable enable = enable ∧
      ∀ field, ¬ Pairs (items.map (Item.mapTies onEnable onField)) enable field := by
  have hkept : onEnable enable = enable := by
    rcases h.enable_cases henable with hkept | ⟨field, hpair, _⟩
    · exact hkept
    · exact absurd hpair (hnone field)
  refine ⟨hkept, ?_⟩
  intro field hpair
  obtain ⟨d, f, hdeclared, hd, rfl⟩ := h.exists_pairs hnames hpair
  obtain rfl := h.enable_inj hnames hdeclared.1 henable (hd.trans hkept.symm)
  exact hnone f hdeclared

theorem unpaired_field (hnames : (items.filterMap Item.name?).Nodup)
    (hfield : Item.field field ∈ items) (hnone : ∀ enable, ¬ Pairs items enable field) :
    onField field = field ∧
      ∀ enable, ¬ Pairs (items.map (Item.mapTies onEnable onField)) enable field := by
  have hkept : onField field = field := by
    rcases h.field_cases hfield with hkept | ⟨enable, hpair, _⟩
    · exact hkept
    · exact absurd hpair (hnone enable)
  refine ⟨hkept, ?_⟩
  intro enable hpair
  obtain ⟨d, f, hdeclared, rfl, hf⟩ := h.exists_pairs hnames hpair
  obtain rfl := h.field_inj hnames hdeclared.2.1 hfield (hf.trans hkept.symm)
  exact hnone d hdeclared

theorem tieEnable_map (hnames : (items.filterMap Item.name?).Nodup) (hcoherent : Coherent items)
    (henable : Item.enable enable ∈ items) :
    tieEnable (items.map (Item.mapTies onEnable onField)) (onEnable enable) =
      tieEnable items enable := by
  have hafter := h.coherent_map hnames hcoherent
  by_cases hpaired : ∃ field, Pairs items enable field
  · obtain ⟨field, hpair⟩ := hpaired
    rw [hcoherent.tieEnable_eq hpair, hafter.tieEnable_eq (h.pairs hpair),
      h.name_onField hpair.2.1]
    rcases h.enable_cases henable with hkept | ⟨_, _, _, hchange⟩
    · rw [hkept]
    · rw [hchange]
  · have hnone := not_exists.mp hpaired
    obtain ⟨hkept, hstill⟩ := h.unpaired_enable hnames henable hnone
    rw [tieEnable_eq_self henable hnone, hkept]
    exact tieEnable_eq_self (Item.mem_map_enable.mpr ⟨enable, henable, hkept⟩) hstill

theorem tieField_map (hnames : (items.filterMap Item.name?).Nodup) (hcoherent : Coherent items)
    (hfield : Item.field field ∈ items) :
    tieField (items.map (Item.mapTies onEnable onField)) (onField field) =
      tieField items field := by
  have hafter := h.coherent_map hnames hcoherent
  by_cases hpaired : ∃ enable, Pairs items enable field
  · obtain ⟨enable, hpair⟩ := hpaired
    have hchanged := h.pairs hpair
    rcases h.field_cases hfield with hkept | ⟨other, hother, hopen, hchange⟩
    · rw [hkept] at hchanged ⊢
      cases hgate : field.enabledBy with
      | none =>
          rw [hcoherent.tieField_eq hpair hgate, hafter.tieField_eq hchanged hgate,
            h.name_onEnable hpair.1]
      | some name =>
          rw [hcoherent.tieField_gated hfield hgate, hafter.tieField_gated hchanged.2.1 hgate]
    · rw [hcoherent.tieField_eq hother hopen, hchange]
      rw [hchange] at hchanged
      exact hafter.tieField_gated hchanged.2.1 rfl
  · have hnone := not_exists.mp hpaired
    obtain ⟨hkept, hstill⟩ := h.unpaired_field hnames hfield hnone
    rw [tieField_eq_self hfield hnone, hkept]
    exact tieField_eq_self (Item.mem_map_field.mpr ⟨field, hfield, hkept⟩) hstill

/-- Tying makes the same of a changed item as of the item before. -/
theorem mapTies_tie (hnames : (items.filterMap Item.name?).Nodup) (hcoherent : Coherent items)
    {item : Item} (hitem : item ∈ items) :
    tie (items.map (Item.mapTies onEnable onField)) (Item.mapTies onEnable onField item) =
      tie items item := by
  cases item with
  | reserved _ => rfl
  | enable enable => exact congrArg Item.enable (h.tieEnable_map hnames hcoherent hitem)
  | field field => exact congrArg Item.field (h.tieField_map hnames hcoherent hitem)

end PartialTie

/-- Tying itself gives items the names that their pairs call for. -/
theorem Coherent.partialTie (h : Coherent items) :
    PartialTie items (tieEnable items) (tieField items) := by
  constructor
  · intro enable henable
    by_cases hpaired : ∃ field, Pairs items enable field
    · obtain ⟨field, hpair⟩ := hpaired
      refine .inr ⟨field, hpair, ?_, h.tieEnable_eq hpair⟩
      rcases hpair.2.2 with hclaim | hnamed
      · exact h.agrees hpair hclaim
      · exact .inr hnamed
    · exact .inl (tieEnable_eq_self henable (not_exists.mp hpaired))
  · intro field hfield
    by_cases hpaired : ∃ enable, Pairs items enable field
    · obtain ⟨enable, hpair⟩ := hpaired
      cases hgate : field.enabledBy with
      | none => exact .inr ⟨enable, hpair, rfl, h.tieField_eq hpair hgate⟩
      | some name => exact .inl (h.tieField_gated hfield hgate)
    · exact .inl (tieField_eq_self hfield (not_exists.mp hpaired))

end Linkage

end RadioPacket
