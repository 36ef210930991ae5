import RadioPacket.Proofs.Cif.Word

/-!
# Groups mirror their entries

A group can be built exactly when its entries are legal, and the group is then determined by the
entries that are not reserved.  Its word shows each of them at its own bit, its payload list follows
the word from the highest bit down, and each payload field knows the place of its enable.
-/

namespace RadioPacket

/-- What the group of a blueprint looks like: the word has a slot for each entry at the bit of the
entry, runs for all other bits, and no links; the payload follows in the order of the word. -/
structure CifGroup.Mirrors (group : CifGroup) (blueprint : CifBlueprint) : Prop where
  name : group.name = blueprint.name
  word_bits : group.enables.bits = 32
  enable : ∀ entry ∈ blueprint.entries, ∀ type, entry.kind = .content type →
    ⟨.enable { name := entry.name, bits := 1, field := some entry.name },
      .ofWordBit 0 entry.bit, none⟩ ∈ group.enables.slots
  flag : ∀ entry ∈ blueprint.entries, entry.kind = .indicator →
    ⟨.field { name := entry.name, type := .leaf .flag, mode := entry.mode },
      .ofWordBit 0 entry.bit, none⟩ ∈ group.enables.slots
  /-- Every bit that no named entry uses is in a reserved run. -/
  reserved : ∀ bit < 32, (∀ entry ∈ blueprint.entries, entry.bit = bit → entry.kind = .reserved) →
    ∃ slot ∈ group.enables.slots, slot.item.isReserved = true ∧
      slot.position.offset ≤ (Position.ofWordBit 0 bit).offset ∧
      (Position.ofWordBit 0 bit).offset < slot.finish.offset
  /-- Nothing else is in the word. -/
  named : ∀ slot ∈ group.enables.slots, slot.item.isReserved = false →
    ∃ entry ∈ blueprint.entries, entry.item? = some slot.item ∧
      slot.position = .ofWordBit 0 entry.bit
  merged : ∀ (i : Nat) (a b : Slot), group.enables.slots[i]? = some a →
    group.enables.slots[i + 1]? = some b → ¬ (a.item.isReserved = true ∧ b.item.isReserved = true)
  unlinked : ∀ slot ∈ group.enables.slots, slot.link = none
  descending : group.content.Pairwise fun a b => b.bit < a.bit
  content : ∀ content, content ∈ group.content ↔
    ∃ entry ∈ blueprint.entries, ∃ type, entry.kind = .content type ∧
      content.field =
        { name := entry.name, type, mode := entry.mode, indicatorBit := some entry.bit } ∧
      content.enablePosition = .ofWordBit 0 entry.bit ∧
      group.enables.index? entry.name = some content.enable
  resolves : ∀ content ∈ group.content, group.enables.slot? content.enable =
    some ⟨.enable { name := content.name, bits := 1, field := some content.name },
      content.enablePosition, none⟩

namespace CifBlueprint

variable {blueprint : CifBlueprint}

theorem mem_payload (hlegal : CifEntry.Legal blueprint.entries) {entry : CifEntry}
    {type : FieldType} :
    (entry, type) ∈ blueprint.payload ↔
      entry ∈ blueprint.entries ∧ entry.kind = .content type := by
  rw [payload_eq, List.mem_filterMap]
  simp only [(sorted_perm hlegal.inWord hlegal.bits).mem_iff, CifEntry.payload?_eq_some]
  constructor
  · rintro ⟨_, hentry, rfl, hkind⟩
    exact ⟨hentry, hkind⟩
  · rintro ⟨hentry, hkind⟩
    exact ⟨entry, hentry, rfl, hkind⟩

theorem pairwise_payload (hlegal : CifEntry.Legal blueprint.entries) :
    blueprint.payload.Pairwise fun a b => b.1.bit < a.1.bit := by
  rw [payload_eq, sorted, List.pairwise_filterMap, List.pairwise_filterMap, List.pairwise_reverse]
  apply List.pairwise_lt_range.imp
  intro low high hlt a ha b hb first hfirst second hsecond
  obtain ⟨_, rfl⟩ := (entryAt?_eq_some hlegal.bits).mp ha
  obtain ⟨_, rfl⟩ := (entryAt?_eq_some hlegal.bits).mp hb
  rw [(CifEntry.payload?_eq_some.mp hfirst).1, (CifEntry.payload?_eq_some.mp hsecond).1]
  exact hlt

/-! ## The word -/

section Word

variable (hlegal : CifEntry.Legal blueprint.entries)

include hlegal

theorem build_word : blueprint.word.build = .ok blueprint.wordLayout := by
  have hnames := (names_items hlegal.inWord hlegal.bits).nodup_iff.mpr hlegal.names
  exact build_word_eq_ok.mpr ⟨hnames, rfl⟩

theorem unlinked_word {slot : Slot} (hslot : slot ∈ blueprint.wordLayout.slots) :
    slot.link = none := by
  have hnames := (names_items hlegal.inWord hlegal.bits).nodup_iff.mpr hlegal.names
  have hlinked := Blueprint.linked_of_build (build_word hlegal)
  have hitems : blueprint.wordLayout.items = blueprint.items := Blueprint.items_laidOut _ _ _
  cases hlink : slot.link with
  | none => rfl
  | some index =>
      obtain ⟨_, _, enable, field, hpair, _⟩ := (hlinked.link_eq_some hslot).mp hlink
      rw [hitems] at hpair
      exact absurd hpair (not_pairs hnames enable field)

theorem mem_slots_wordLayout {slot : Slot} (hnamed : slot.item.isReserved = false) :
    slot ∈ blueprint.wordLayout.slots ↔
      ∃ entry ∈ blueprint.entries, entry.item? = some slot.item ∧
        slot.position = .ofWordBit 0 entry.bit ∧ slot.link = none := by
  have hslots {slot : Slot} (hnamed : slot.item.isReserved = false) :
      slot ∈ blueprint.wordLayout.slots ↔
        ∃ bit < wordBits, blueprint.wordItem? bit = some slot.item ∧
          slot.position = .ofWordBit 0 bit ∧
          slot.link = Linkage.partner? blueprint.items slot.item :=
    mem_slotsFrom_wordItems rfl hnamed
  constructor
  · intro hslot
    obtain ⟨bit, _, hitem, hposition, _⟩ := (hslots hnamed).mp hslot
    obtain ⟨entry, hentry, rfl, hentryitem⟩ := (wordItem?_eq_some hlegal.bits).mp hitem
    exact ⟨entry, hentry, hentryitem, hposition, unlinked_word hlegal hslot⟩
  · rintro ⟨entry, hentry, hitem, hposition, hlink⟩
    have hfound : blueprint.wordItem? entry.bit = some slot.item :=
      (wordItem?_eq_some hlegal.bits).mpr ⟨entry, hentry, rfl, hitem⟩
    have hbit : entry.bit < wordBits := hlegal.inWord entry hentry
    -- The slot that the layout has for the item is not linked either.
    let placed : Slot := { slot with link := Linkage.partner? blueprint.items slot.item }
    have hnamedplaced : placed.item.isReserved = false := hnamed
    have hplaced : placed ∈ blueprint.wordLayout.slots :=
      (hslots hnamedplaced).mpr ⟨entry.bit, hbit, hfound, hposition, rfl⟩
    have hnone : Linkage.partner? blueprint.items slot.item = none := unlinked_word hlegal hplaced
    exact (hslots hnamed).mpr ⟨entry.bit, hbit, hfound, hposition, hlink.trans hnone.symm⟩

theorem enable_mem_wordLayout {entry : CifEntry} (hentry : entry ∈ blueprint.entries)
    {type : FieldType} (hkind : entry.kind = .content type) :
    ⟨.enable { name := entry.name, bits := 1, field := some entry.name },
      .ofWordBit 0 entry.bit, none⟩ ∈ blueprint.wordLayout.slots := by
  have hitem : entry.item? =
      some (.enable { name := entry.name, bits := 1, field := some entry.name }) := by
    rw [CifEntry.item?, hkind]
  exact (mem_slots_wordLayout hlegal rfl).mpr ⟨entry, hentry, hitem, rfl, rfl⟩

theorem index?_wordLayout {entry : CifEntry} (hentry : entry ∈ blueprint.entries)
    {type : FieldType} (hkind : entry.kind = .content type) :
    ∃ index, blueprint.wordLayout.index? entry.name = some index ∧
      blueprint.wordLayout.slot? index =
        some ⟨.enable { name := entry.name, bits := 1, field := some entry.name },
          .ofWordBit 0 entry.bit, none⟩ := by
  have hsound := (built_word (build_word hlegal)).sound
  obtain ⟨index, hindex⟩ := List.mem_iff_getElem?.mp (enable_mem_wordLayout hlegal hentry hkind)
  exact ⟨index, hsound.index?_eq_some.mpr ⟨_, hindex, rfl⟩, hindex⟩

/-- Every bit without a named entry is in a reserved run of the word. -/
theorem reserved_wordLayout {bit : Nat} (hbit : bit < 32)
    (hfree : ∀ entry ∈ blueprint.entries, entry.bit = bit → entry.kind = .reserved) :
    ∃ slot ∈ blueprint.wordLayout.slots, slot.item.isReserved = true ∧
      slot.position.offset ≤ (Position.ofWordBit 0 bit).offset ∧
      (Position.ofWordBit 0 bit).offset < slot.finish.offset := by
  have htile : Slot.Tile 0 blueprint.wordLayout.slots :=
    Linkage.tile_slotsFrom blueprint.items .start blueprint.items
  have htotal : Item.totalBits (blueprint.wordLayout.slots.map Slot.item) = 32 := by
    rw [wordLayout, Blueprint.laidOut, Linkage.map_item_slots]
    exact totalBits_wordItems wordBits 0
  have hoffset := offset_ofWordBit hbit
  obtain ⟨slot, hslot, hstart, hend⟩ :=
    htile.exists_covering (Nat.zero_le (Position.ofWordBit 0 bit).offset) (by omega)
  refine ⟨slot, hslot, ?_, hstart, hend⟩
  -- A named slot is one bit wide, so the bit would be the one of its entry.
  by_contra hnamed
  rw [Bool.not_eq_true] at hnamed
  obtain ⟨entry, hentry, hitem, hposition, _⟩ := (mem_slots_wordLayout hlegal hnamed).mp hslot
  have hwidth : slot.bits = 1 := (CifEntry.item?_eq_some hitem).1
  have hentrybit := hlegal.inWord entry hentry
  have hentryoffset := offset_ofWordBit hentrybit
  have hfinish : slot.finish.offset = slot.position.offset + slot.bits := rfl
  rw [hposition] at hstart hfinish
  have hreserved := hfree entry hentry (by omega)
  rw [CifEntry.item?, hreserved] at hitem
  cases hitem

end Word

/-! ## The group -/

/-- The payload field of an entry, with the place that its enable has in the word. -/
def contentAt (blueprint : CifBlueprint) (entry : CifEntry) (type : FieldType) : CifContent where
  field := { name := entry.name, type, mode := entry.mode, indicatorBit := some entry.bit }
  enable := (blueprint.wordLayout.index? entry.name).getD 0
  enablePosition := .ofWordBit 0 entry.bit

/-- The group of a blueprint with legal entries. -/
def assembled (blueprint : CifBlueprint) : CifGroup :=
  let content := blueprint.payload.map fun (entry, type) => blueprint.contentAt entry type
  { name := blueprint.name
    enables := blueprint.wordLayout
    content
    warnings := content.filterMap (sizeWarning? blueprint.name) }

section Group

variable (hlegal : CifEntry.Legal blueprint.entries)

include hlegal

theorem contentOf_eq {entry : CifEntry} {type : FieldType}
    (h : (entry, type) ∈ blueprint.payload) :
    contentOf blueprint.wordLayout entry type = .ok (blueprint.contentAt entry type) := by
  obtain ⟨hentry, hkind⟩ := (mem_payload hlegal).mp h
  obtain ⟨index, hindex, hslot⟩ := index?_wordLayout hlegal hentry hkind
  have hfound : blueprint.wordLayout.find? entry.name =
      some ⟨.enable { name := entry.name, bits := 1, field := some entry.name },
        .ofWordBit 0 entry.bit, none⟩ := by
    rw [Layout.find?, hindex]
    exact hslot
  simp only [contentOf, contentAt, hindex, hfound, Option.getD_some]

/-- The check of the enables never finds one out of place. -/
theorem checkedContentOf_eq {entry : CifEntry} {type : FieldType}
    (h : (entry, type) ∈ blueprint.payload) :
    checkedContentOf blueprint.name blueprint.wordLayout entry type =
      .ok (blueprint.contentAt entry type) := by
  obtain ⟨hentry, _⟩ := (mem_payload hlegal).mp h
  have hbit := hlegal.inWord entry hentry
  have hplace : ¬ ((Position.ofWordBit 0 entry.bit).word ≠ 0 ∨
      (Position.ofWordBit 0 entry.bit).bit ≠ entry.bit) := by
    simp only [Position.word, Position.bit, offset_ofWordBit hbit, wordBits]
    omega
  rw [checkedContentOf, contentOf_eq hlegal h]
  exact if_neg hplace

theorem mapM_contentOf :
    blueprint.payload.mapM (fun (entry, type) => contentOf blueprint.wordLayout entry type) =
      .ok blueprint.assembled.content := by
  rw [Fallible.mapM_eq_ok]
  exact List.forall₂_map_right_iff.mpr
    (List.forall₂_same.mpr fun _ h => contentOf_eq hlegal h)

theorem mapM_checkedContentOf :
    blueprint.payload.mapM (fun (entry, type) =>
        checkedContentOf blueprint.name blueprint.wordLayout entry type) =
      .ok blueprint.assembled.content := by
  rw [Fallible.mapM_eq_ok]
  exact List.forall₂_map_right_iff.mpr
    (List.forall₂_same.mpr fun _ h => checkedContentOf_eq hlegal h)

theorem checkEntries_of_legal :
    checkEntries blueprint.name [] blueprint.entries = .ok () :=
  checkEntries_eq_ok.mpr ⟨hlegal.inWord, hlegal.bits, nofun⟩

end Group

/-- Legal entries make a group, and no others do. -/
theorem build_eq_ok {group : CifGroup} :
    blueprint.build = .ok group ↔
      CifEntry.Legal blueprint.entries ∧ group = blueprint.assembled := by
  rw [build, Fallible.bind_eq_ok]
  constructor
  · rintro ⟨_, hchecked, h⟩
    obtain ⟨hinWord, hbits, _⟩ := checkEntries_eq_ok.mp hchecked
    obtain ⟨enables, hword, h⟩ := Fallible.bind_eq_ok.mp h
    obtain ⟨hnames, rfl⟩ := build_word_eq_ok.mp hword
    have hlegal : CifEntry.Legal blueprint.entries :=
      ⟨hinWord, hbits, (names_items hinWord hbits).nodup_iff.mp hnames⟩
    rw [mapM_contentOf hlegal] at h
    cases h
    exact ⟨hlegal, rfl⟩
  · rintro ⟨hlegal, rfl⟩
    refine ⟨(), checkEntries_of_legal hlegal, ?_⟩
    rw [build_word hlegal, Fallible.bind_eq_ok]
    refine ⟨_, rfl, ?_⟩
    rw [mapM_contentOf hlegal]
    rfl

theorem checkedBuild_eq : blueprint.checkedBuild = blueprint.build.mapError .layout := by
  rw [checkedBuild, build]
  cases hchecked : checkEntries blueprint.name [] blueprint.entries with
  | error error => rfl
  | ok _ =>
      obtain ⟨hinWord, hbits, _⟩ := checkEntries_eq_ok.mp hchecked
      cases hword : blueprint.word.build with
      | error error => rfl
      | ok enables =>
          obtain ⟨hnames, rfl⟩ := build_word_eq_ok.mp hword
          have hlegal : CifEntry.Legal blueprint.entries :=
            ⟨hinWord, hbits, (names_items hinWord hbits).nodup_iff.mp hnames⟩
          have hcontent := mapM_contentOf hlegal
          have hcheckedcontent := mapM_checkedContentOf hlegal
          simp only [Except.mapError, bind, Except.bind] at hcontent hcheckedcontent ⊢
          rw [hcontent, hcheckedcontent]
          rfl

theorem mirrors_assembled (hlegal : CifEntry.Legal blueprint.entries) :
    blueprint.assembled.Mirrors blueprint where
  name := rfl
  word_bits := totalBits_wordItems wordBits 0
  enable entry hentry type hkind := enable_mem_wordLayout hlegal hentry hkind
  flag entry hentry hkind := by
    have hitem : entry.item? =
        some (.field { name := entry.name, type := .leaf .flag, mode := entry.mode }) := by
      rw [CifEntry.item?, hkind]
    exact (mem_slots_wordLayout hlegal rfl).mpr ⟨entry, hentry, hitem, rfl, rfl⟩
  reserved bit hbit hfree := reserved_wordLayout hlegal hbit hfree
  named slot hslot hnamed := by
    obtain ⟨entry, hentry, hitem, hposition, _⟩ := (mem_slots_wordLayout hlegal hnamed).mp hslot
    exact ⟨entry, hentry, hitem, hposition⟩
  merged i a b ha hb := by
    have hchain : blueprint.wordLayout.items.IsChain fun a b =>
        ¬ (a.isReserved = true ∧ b.isReserved = true) := by
      rw [wordLayout, Blueprint.items_laidOut]
      exact isChain_wordItems wordBits 0
    have hfirst := Layout.getElem?_items ha
    have hsecond := Layout.getElem?_items hb
    obtain ⟨_, hfirst⟩ := List.getElem?_eq_some_iff.mp hfirst
    obtain ⟨hlt, hsecond⟩ := List.getElem?_eq_some_iff.mp hsecond
    rw [← hfirst, ← hsecond]
    exact List.isChain_iff_getElem.mp hchain i hlt
  unlinked slot hslot := unlinked_word hlegal hslot
  descending := by
    rw [assembled, List.pairwise_map]
    exact pairwise_payload hlegal
  content content := by
    rw [assembled, List.mem_map]
    constructor
    · rintro ⟨⟨entry, type⟩, hentry, rfl⟩
      obtain ⟨hentry, hkind⟩ := (mem_payload hlegal).mp hentry
      obtain ⟨index, hindex, _⟩ := index?_wordLayout hlegal hentry hkind
      refine ⟨entry, hentry, type, hkind, rfl, rfl, ?_⟩
      simp only [contentAt, hindex, Option.getD_some]
    · rintro ⟨entry, hentry, type, hkind, hfield, hposition, hindex⟩
      refine ⟨(entry, type), (mem_payload hlegal).mpr ⟨hentry, hkind⟩, ?_⟩
      obtain ⟨field, enable, position⟩ := content
      simp only [contentAt, CifContent.mk.injEq]
      exact ⟨hfield.symm, by rw [hindex, Option.getD_some], hposition.symm⟩
  resolves content hcontent := by
    obtain ⟨⟨entry, type⟩, hentry, rfl⟩ := List.mem_map.mp hcontent
    obtain ⟨hentry, hkind⟩ := (mem_payload hlegal).mp hentry
    obtain ⟨index, hindex, hslot⟩ := index?_wordLayout hlegal hentry hkind
    simp only [contentAt, hindex, Option.getD_some]
    exact hslot

/-! ## Order and reserved entries -/

/-- The entries that are not reserved determine what is made of the entry at a bit. -/
theorem bind_entryAt?_congr {other : CifBlueprint} (hlegal : CifEntry.Legal blueprint.entries)
    (hother : CifEntry.Legal other.entries)
    (hsame : ∀ entry, entry.isReserved = false →
      (entry ∈ blueprint.entries ↔ entry ∈ other.entries))
    {α : Type} {f : CifEntry → Option α} (hf : ∀ entry, entry.isReserved = true → f entry = none)
    (bit : Nat) :
    (blueprint.entryAt? bit).bind f = (other.entryAt? bit).bind f := by
  ext result
  simp only [Option.bind_eq_some_iff, entryAt?_eq_some hlegal.bits, entryAt?_eq_some hother.bits]
  have hnamed {entry : CifEntry} (hresult : f entry = some result) : entry.isReserved = false := by
    rw [← Bool.not_eq_true]
    intro hreserved
    cases (hf entry hreserved).symm.trans hresult
  constructor
  · rintro ⟨entry, ⟨hentry, hbit⟩, hresult⟩
    exact ⟨entry, ⟨(hsame entry (hnamed hresult)).mp hentry, hbit⟩, hresult⟩
  · rintro ⟨entry, ⟨hentry, hbit⟩, hresult⟩
    exact ⟨entry, ⟨(hsame entry (hnamed hresult)).mpr hentry, hbit⟩, hresult⟩

theorem wordItems_congr {other : CifBlueprint}
    (h : ∀ bit, blueprint.wordItem? bit = other.wordItem? bit) (bit run : Nat) :
    blueprint.wordItems bit run = other.wordItems bit run := by
  induction bit generalizing run with
  | zero => rfl
  | succ bit ih => simp only [wordItems, h, ih]

/-- A group does not depend on the order of the entries, nor on the reserved ones. -/
theorem assembled_congr {other : CifBlueprint} (hname : blueprint.name = other.name)
    (hlegal : CifEntry.Legal blueprint.entries) (hother : CifEntry.Legal other.entries)
    (hsame : ∀ entry, entry.isReserved = false →
      (entry ∈ blueprint.entries ↔ entry ∈ other.entries)) :
    blueprint.assembled = other.assembled := by
  have hitem (bit : Nat) : blueprint.wordItem? bit = other.wordItem? bit := by
    rw [wordItem?_eq, wordItem?_eq]
    exact bind_entryAt?_congr hlegal hother hsame (fun _ => CifEntry.item?_eq_none.mpr) bit
  have hpayload : blueprint.payload = other.payload := by
    rw [payload_eq, payload_eq, sorted, sorted, List.filterMap_filterMap, List.filterMap_filterMap]
    congr 1
    funext bit
    exact bind_entryAt?_congr hlegal hother hsame (fun _ => CifEntry.payload?_eq_none) bit
  have hword : blueprint.wordLayout = other.wordLayout := by
    rw [wordLayout, wordLayout, items, items, hname, wordItems_congr hitem]
  have hcontent : blueprint.contentAt = other.contentAt := by
    funext entry type
    rw [contentAt, contentAt, hword]
  rw [assembled, assembled, hpayload, hcontent, hword, hname]

/-- A group can be built exactly when its entries are legal, and it mirrors them.  Checking the
places of the enables never refuses a group.  The order of the entries does not matter, and neither
do reserved entries. -/
theorem build_mirrors_entries (blueprint : CifBlueprint) :
    ((∃ group, blueprint.build = .ok group) ↔ CifEntry.Legal blueprint.entries) ∧
      (∀ group, blueprint.build = .ok group → group.Mirrors blueprint) ∧
      blueprint.checkedBuild = blueprint.build.mapError .layout ∧
      (∀ others group, blueprint.entries.Perm others →
        (({ blueprint with entries := others } : CifBlueprint).build = .ok group ↔
          blueprint.build = .ok group)) ∧
      ∀ others group, others.Sublist blueprint.entries →
        (∀ entry ∈ blueprint.entries, entry.isReserved = false → entry ∈ others) →
        blueprint.build = .ok group →
          ({ blueprint with entries := others } : CifBlueprint).build = .ok group := by
  refine ⟨?_, ?_, checkedBuild_eq, ?_, ?_⟩
  · constructor
    · rintro ⟨_, h⟩
      exact (build_eq_ok.mp h).1
    · intro hlegal
      exact ⟨_, build_eq_ok.mpr ⟨hlegal, rfl⟩⟩
  · intro group h
    obtain ⟨hlegal, rfl⟩ := build_eq_ok.mp h
    exact mirrors_assembled hlegal
  · intro others group hperm
    have hlegal : CifEntry.Legal others ↔ CifEntry.Legal blueprint.entries :=
      ⟨fun h => h.perm hperm.symm, fun h => h.perm hperm⟩
    rw [build_eq_ok, build_eq_ok, hlegal]
    apply and_congr_right
    intro h
    have hsame : ({ blueprint with entries := others } : CifBlueprint).assembled =
        blueprint.assembled :=
      assembled_congr rfl (hlegal.mpr h) h fun _ _ => hperm.mem_iff.symm
    rw [hsame]
  · intro others group hsub hkept h
    obtain ⟨hlegal, rfl⟩ := build_eq_ok.mp h
    have hothers := hlegal.sublist hsub
    refine build_eq_ok.mpr ⟨hothers, assembled_congr rfl hlegal hothers ?_⟩
    intro entry hnamed
    exact ⟨fun hentry => hkept entry hentry hnamed, fun hentry => hsub.subset hentry⟩

namespace Sample

/-- A flag, two payload fields of eight and of eleven bits, and a reserved bit. -/
def tuning : CifBlueprint where
  name := "tuning"
  entries :=
    [.content "gain" 23 (.leaf Layout.Sample.level), .reserved 30, .indicator "changed" 31,
      .content "pair" 29 (.record Layout.Sample.pairLayout)]

theorem legal_tuning : CifEntry.Legal tuning.entries := by
  constructor
  · decide
  · decide
  · decide

/-- The group of `tuning` mirrors it, and is the same without the reserved bit. -/
theorem build_tuning :
    CifEntry.Legal tuning.entries ∧ ∃ group, tuning.build = .ok group ∧ group.Mirrors tuning ∧
      ({ tuning with entries := tuning.entries.reverse } : CifBlueprint).build = .ok group ∧
      ({ tuning with entries := tuning.entries.eraseIdx 1 } : CifBlueprint).build = .ok group := by
  obtain ⟨hbuild, hmirrors, _, horder, hdropped⟩ := build_mirrors_entries tuning
  obtain ⟨group, hgroup⟩ := hbuild.mpr legal_tuning
  have hreverse := (horder _ group (List.reverse_perm tuning.entries).symm).mpr hgroup
  have hkept : ∀ entry ∈ tuning.entries, entry.isReserved = false →
      entry ∈ tuning.entries.eraseIdx 1 := by
    simp [tuning, CifEntry.reserved, CifEntry.isReserved]
  have hdrop := hdropped _ group (List.eraseIdx_sublist tuning.entries 1) hkept hgroup
  exact ⟨legal_tuning, group, hgroup, hmirrors group hgroup, hreverse, hdrop⟩

end Sample

end CifBlueprint

end RadioPacket
