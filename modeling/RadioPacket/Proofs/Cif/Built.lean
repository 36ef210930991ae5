import RadioPacket.Proofs.Cif.Matrix
import RadioPacket.Proofs.Container.Reachable

/-!
# Built groups

A built group comes from a blueprint whose payload structures were built before.  This module
collects what its readers and writers rely on: the word is a built layout of 32 bits that holds
enables and flags only, the enable of each payload field is in the word at the bit of the field, and
every payload structure is built.  A payload field is treated as a slot of its own without a gate,
so that what is known of slots applies to it.
-/

namespace RadioPacket

/-- A payload field as a slot of its own. -/
def CifContent.slot (content : CifContent) : Slot := ⟨.field content.field, .start, none⟩

theorem CifContent.type_of_record? {content : CifContent} {layout : Layout}
    (h : content.slot.item.record? = some layout) : content.type = .record layout := by
  obtain ⟨⟨name, type, mode, enabledBy, editable, bit⟩, enable, position⟩ := content
  cases type with
  | leaf type => cases h
  | record inner =>
      cases h
      rfl

/-- The structure that a payload field holds, if any, can be built. -/
def CifContent.Built (content : CifContent) : Prop :=
  ∀ layout, content.type = .record layout → layout.Built

/-- The fields of the layout are flags. -/
def Layout.FlagsOnly (layout : Layout) : Prop :=
  ∀ slot ∈ layout.slots, ∀ field, slot.item = .field field → field.type = .leaf .flag

/-- The groups that builds give, with payload structures that builds give. -/
def CifGroup.Built (group : CifGroup) : Prop :=
  ∃ blueprint : CifBlueprint, blueprint.build = .ok group ∧
    ∀ entry ∈ blueprint.entries, ∀ layout, entry.kind = .content (.record layout) → layout.Built

namespace CifGroup.Built

variable {group : CifGroup} {content : CifContent}

theorem mirrors (h : group.Built) : ∃ blueprint : CifBlueprint,
    CifEntry.Legal blueprint.entries ∧ group.Mirrors blueprint := by
  obtain ⟨blueprint, hbuild, _⟩ := h
  obtain ⟨hlegal, rfl⟩ := CifBlueprint.build_eq_ok.mp hbuild
  exact ⟨blueprint, hlegal, CifBlueprint.mirrors_assembled hlegal⟩

theorem word (h : group.Built) : group.enables.Built := by
  obtain ⟨blueprint, hbuild, _⟩ := h
  obtain ⟨hlegal, rfl⟩ := CifBlueprint.build_eq_ok.mp hbuild
  exact CifBlueprint.built_word (CifBlueprint.build_word hlegal)

theorem word_bits (h : group.Built) : group.enables.bits = 32 := by
  obtain ⟨_, _, hmirrors⟩ := h.mirrors
  exact hmirrors.word_bits

theorem descending (h : group.Built) : group.content.Pairwise fun a b => b.bit < a.bit := by
  obtain ⟨_, _, hmirrors⟩ := h.mirrors
  exact hmirrors.descending

theorem enable_slot (h : group.Built) (hcontent : content ∈ group.content) :
    group.enables.slots[content.enable]? =
        some ⟨.enable { name := content.name, bits := 1, field := some content.name },
          content.enablePosition, none⟩ ∧
      content.enablePosition.offset = 31 - content.bit ∧ content.bit < 32 := by
  obtain ⟨blueprint, hlegal, hmirrors⟩ := h.mirrors
  refine ⟨hmirrors.resolves content hcontent, ?_⟩
  obtain ⟨entry, hentry, type, _, hfield, hposition, _⟩ := (hmirrors.content content).mp hcontent
  have hbit : content.bit = entry.bit := by
    rw [CifContent.bit, hfield]
    rfl
  have hlt := hlegal.inWord entry hentry
  rw [hposition, hbit]
  exact ⟨CifBlueprint.offset_ofWordBit hlt, hlt⟩

theorem inner (h : group.Built) (hcontent : content ∈ group.content) : content.Built := by
  intro layout htype
  obtain ⟨blueprint, hbuild, hrecords⟩ := h
  obtain ⟨hlegal, rfl⟩ := CifBlueprint.build_eq_ok.mp hbuild
  have hmirrors := CifBlueprint.mirrors_assembled hlegal
  obtain ⟨entry, hentry, type, hkind, hfield, _, _⟩ := (hmirrors.content content).mp hcontent
  rw [CifContent.type, hfield] at htype
  exact hrecords entry hentry layout (htype ▸ hkind)

theorem flagsOnly (h : group.Built) : group.enables.FlagsOnly := by
  intro slot hslot field hfield
  obtain ⟨_, _, hmirrors⟩ := h.mirrors
  have hnamed : slot.item.isReserved = false := by
    rw [hfield]
    rfl
  obtain ⟨entry, _, hitem, _⟩ := hmirrors.named slot hslot hnamed
  rw [hfield] at hitem
  cases hkind : entry.kind with
  | content type => simp [CifEntry.item?, hkind] at hitem
  | indicator =>
      simp only [CifEntry.item?, hkind, Option.some.injEq, Item.field.injEq] at hitem
      rw [← hitem]
  | reserved => simp [CifEntry.item?, hkind] at hitem

end CifGroup.Built

namespace CifBlueprint.Sample

/-- The group of `tuning`. -/
def tuned : CifGroup := tuning.assembled

theorem built_tuned : tuned.Built := by
  refine ⟨tuning, build_eq_ok.mpr ⟨legal_tuning, rfl⟩, ?_⟩
  intro entry hentry layout hkind
  have hpair : layout = Layout.Sample.pairLayout := by
    simp only [tuning, CifEntry.content, CifEntry.reserved, CifEntry.indicator, List.mem_cons,
      List.not_mem_nil, or_false] at hentry
    rcases hentry with rfl | rfl | rfl | rfl
    · cases hkind
    · cases hkind
    · cases hkind
    · cases hkind
      rfl
  rw [hpair]
  exact Layout.Sample.built_pairLayout

end CifBlueprint.Sample

end RadioPacket
