import RadioPacket.Proofs.Cif.Built
import RadioPacket.Proofs.Layout.Derived

/-!
# The flat structure of a group

A group keeps its indicator word and its payload fields apart.  The same items also make one plain
structure: the word, with a name of its own for each enable, and behind it the payload fields from
the highest bit down, each gated by its enable.  This module builds that structure.  Its items are
settled before they are linked, so linking changes nothing, and the only pairs are those of a
payload field and its own enable.
-/

namespace RadioPacket

/-- The item, with an enable under another name. -/
def Item.renameEnable (rename : String → String) : Item → Item
  | .enable declared => .enable { declared with name := rename declared.name }
  | other => other

@[simp] theorem Item.bits_renameEnable (rename : String → String) (item : Item) :
    (item.renameEnable rename).bits = item.bits := by
  cases item with
  | field _ => rfl
  | enable _ => rfl
  | reserved _ => rfl

theorem Item.renameEnable_eq_self {rename : String → String} {item : Item}
    (h : item.enable? = none) : item.renameEnable rename = item := by
  cases item with
  | field _ => rfl
  | enable _ => cases h
  | reserved _ => rfl

/-- The payload field as a field of a structure, gated by the enable of the given name. -/
def CifContent.gated (content : CifContent) (enable : String) : Field where
  name := content.name
  type := content.type
  mode := content.mode
  enabledBy := some enable

/-- The enable of a payload field under the given name. -/
def CifContent.gate (content : CifContent) (enable : String) : Enable where
  name := enable
  field := some content.name

theorem CifContent.record?_gated (content : CifContent) (enable : String) :
    (Item.field (content.gated enable)).record? = content.slot.item.record? := by
  obtain ⟨⟨name, type, mode, enabledBy, editable, bit⟩, index, position⟩ := content
  cases type with
  | leaf _ => rfl
  | record _ => rfl

namespace CifGroup

variable {group : CifGroup} {rename : String → String} {content other : CifContent}

/-- The items of the flat structure, in which the enable of each payload field is renamed. -/
def flatItems (group : CifGroup) (rename : String → String) : List Item :=
  group.enables.items.map (Item.renameEnable rename) ++
    group.content.map fun content => .field (content.gated (rename content.name))

/-- The flat structure of a group. -/
def flat (group : CifGroup) (rename : String → String) : Blueprint where
  name := group.name
  steps := (group.flatItems rename).map .append

/-- The layout of the flat structure. -/
def flatLayout (group : CifGroup) (rename : String → String) : Layout :=
  Blueprint.laidOut group.name (group.flatItems rename) false

@[simp] theorem items_flatLayout (group : CifGroup) (rename : String → String) :
    (group.flatLayout rename).items = group.flatItems rename :=
  Blueprint.items_laidOut _ _ _

/-- The conditions for a flat structure: every payload field has bits, all of them fit a packet
behind the word, and the enables get names that nothing else in the group has. -/
structure Flattens (group : CifGroup) (rename : String → String) : Prop where
  built : group.Built
  wide : ∀ content ∈ group.content, content.type.bits ≠ 0
  short : group.maxPayloadBits ≤ 65534 * 32
  distinct : ∀ a ∈ group.content, ∀ b ∈ group.content,
    rename a.name = rename b.name → a.name = b.name
  unused : ∀ content ∈ group.content, ∀ slot ∈ group.enables.slots,
    slot.name? ≠ some (rename content.name)

/-! ## The word and the payload -/

namespace Built

theorem unlinked (h : group.Built) {slot : Slot} (hslot : slot ∈ group.enables.slots) :
    slot.link = none := by
  obtain ⟨_, _, hmirrors⟩ := h.mirrors
  exact hmirrors.unlinked slot hslot

theorem enable_mem (h : group.Built) (hcontent : content ∈ group.content) :
    Item.enable (content.gate content.name) ∈ group.enables.items :=
  List.mem_map.mpr ⟨_, List.mem_of_getElem? (h.enable_slot hcontent).1, rfl⟩

/-- Every enable of the word is the one of a payload field. -/
theorem eq_gate (h : group.Built) {enable : Enable}
    (henable : Item.enable enable ∈ group.enables.items) :
    ∃ content ∈ group.content, enable = content.gate content.name := by
  obtain ⟨slot, hslot, hitem⟩ := List.mem_map.mp henable
  obtain ⟨blueprint, _, hmirrors⟩ := h.mirrors
  have hsolid : slot.item.isReserved = false := by
    rw [hitem]
    rfl
  obtain ⟨entry, hentry, hentryitem, _⟩ := hmirrors.named slot hslot hsolid
  rw [hitem, CifEntry.item?] at hentryitem
  split at hentryitem
  · next type hkind =>
      obtain rfl := Item.enable.inj (Option.some.inj hentryitem)
      obtain ⟨index, hindex⟩ := List.mem_iff_getElem?.mp hslot
      have hname : slot.name? = some entry.name := by
        rw [Slot.name?, hitem]
        rfl
      let content : CifContent :=
        { field := { name := entry.name, type, mode := entry.mode,
                     indicatorBit := some entry.bit }
          enable := index
          enablePosition := .ofWordBit 0 entry.bit }
      have hfound : group.enables.index? entry.name = some content.enable :=
        h.word.sound.index?_eq_some.mpr ⟨slot, hindex, hname⟩
      have hcontent : content ∈ group.content :=
        (hmirrors.content content).mpr ⟨entry, hentry, type, hkind, rfl, rfl, hfound⟩
      exact ⟨content, hcontent, rfl⟩
  · cases Option.some.inj hentryitem
  · cases hentryitem

theorem enable?_of_name (h : group.Built) {item : Item} (hitem : item ∈ group.enables.items)
    {name : String} (hname : item.name? = some name)
    (hother : ∀ content ∈ group.content, name ≠ content.name) : item.enable? = none := by
  obtain field | enable | run := item
  · rfl
  · obtain ⟨content, hcontent, rfl⟩ := h.eq_gate hitem
    exact absurd (Option.some.inj hname).symm (hother content hcontent)
  · rfl

theorem open_of_mem (h : group.Built) {field : Field}
    (hfield : Item.field field ∈ group.enables.items) : field.enabledBy = none := by
  obtain ⟨slot, hslot, hitem⟩ := List.mem_map.mp hfield
  obtain ⟨_, _, hmirrors⟩ := h.mirrors
  have hsolid : slot.item.isReserved = false := by
    rw [hitem]
    rfl
  obtain ⟨_, _, hentryitem, _⟩ := hmirrors.named slot hslot hsolid
  obtain ⟨_, _, _, _, _, hopen⟩ := CifEntry.item?_eq_some hentryitem
  exact hopen field hitem

theorem name_ne_of_field (h : group.Built) (hcontent : content ∈ group.content) {field : Field}
    (hfield : Item.field field ∈ group.enables.items) : content.name ≠ field.name := by
  intro hname
  have hsame := Item.eq_of_name? h.word.sound.names (h.enable_mem hcontent) hfield
    (congrArg some hname) rfl
  cases hsame

/-- Payload fields of one name have one enable, so their bits are the same. -/
theorem bit_eq_of_name (h : group.Built) (hcontent : content ∈ group.content)
    (hother : other ∈ group.content) (hname : content.name = other.name) :
    content.bit = other.bit := by
  obtain ⟨hslot, hoffset, hbit⟩ := h.enable_slot hcontent
  obtain ⟨hotherslot, hotheroffset, hotherbit⟩ := h.enable_slot hother
  have henable : content.enable = other.enable :=
    h.word.sound.eq_of_name? hslot hotherslot (congrArg some hname) rfl
  rw [henable, hotherslot, Option.some.injEq, Slot.mk.injEq] at hslot
  have hposition := congrArg Position.offset hslot.2.1
  omega

theorem nodup_names (h : group.Built) : (group.content.map CifContent.name).Nodup := by
  rw [List.Nodup, List.pairwise_map]
  refine h.descending.imp_of_mem ?_
  intro a b ha hb hlt hname
  exact absurd (h.bit_eq_of_name ha hb hname) (Nat.ne_of_gt hlt)

theorem eq_of_name (h : group.Built) (hcontent : content ∈ group.content)
    (hother : other ∈ group.content) (hname : content.name = other.name) : content = other :=
  List.inj_on_of_nodup_map h.nodup_names hcontent hother hname

end Built

/-! ## The items of the flat structure -/

theorem mem_flatItems_enable {enable : Enable} (h : group.Built) :
    Item.enable enable ∈ group.flatItems rename ↔
      ∃ content ∈ group.content, enable = content.gate (rename content.name) := by
  rw [flatItems, List.mem_append, List.mem_map, List.mem_map]
  constructor
  · rintro (⟨item, hitem, hrenamed⟩ | ⟨content, _, hfield⟩)
    · obtain field | found | run := item
      · cases hrenamed
      · obtain ⟨content, hcontent, rfl⟩ := h.eq_gate hitem
        exact ⟨content, hcontent, (Item.enable.inj hrenamed).symm⟩
      · cases hrenamed
    · cases hfield
  · rintro ⟨content, hcontent, rfl⟩
    exact .inl ⟨_, h.enable_mem hcontent, rfl⟩

theorem mem_flatItems_field {field : Field} :
    Item.field field ∈ group.flatItems rename ↔
      Item.field field ∈ group.enables.items ∨
        ∃ content ∈ group.content, field = content.gated (rename content.name) := by
  rw [flatItems, List.mem_append, List.mem_map, List.mem_map]
  apply or_congr
  · constructor
    · rintro ⟨item, hitem, hrenamed⟩
      obtain found | enable | run := item
      · exact hrenamed ▸ hitem
      · cases hrenamed
      · cases hrenamed
    · intro hfield
      exact ⟨_, hfield, rfl⟩
  · simp only [Item.field.injEq, eq_comm]

theorem totalBits_renamed (items : List Item) :
    Item.totalBits (items.map (Item.renameEnable rename)) = Item.totalBits items := by
  induction items with
  | nil => rfl
  | cons item items ih =>
      rw [List.map_cons, Item.totalBits, Item.totalBits, ih, Item.bits_renameEnable]

theorem totalBits_flatItems (h : group.Built) :
    Item.totalBits (group.flatItems rename) = 32 + group.maxPayloadBits := by
  have hpayload (contents : List CifContent) :
      Item.totalBits (contents.map fun content =>
        .field (content.gated (rename content.name))) =
          contents.foldr (fun content total => content.type.bits + total) 0 := by
    induction contents with
    | nil => rfl
    | cons content contents ih =>
        rw [List.map_cons, Item.totalBits, ih]
        rfl
  rw [flatItems, Item.totalBits_append, totalBits_renamed, h.word.sound.total, h.word_bits,
    hpayload]
  rfl

namespace Flattens

variable (h : group.Flattens rename)

include h

/-! ## Names and pairs -/

theorem eq_of_rename (hcontent : content ∈ group.content) (hother : other ∈ group.content)
    (hname : rename content.name = rename other.name) : content = other :=
  h.built.eq_of_name hcontent hother (h.distinct content hcontent other hother hname)

theorem name_ne (hcontent : content ∈ group.content) {item : Item}
    (hitem : item ∈ group.enables.items) : item.name? ≠ some (rename content.name) := by
  obtain ⟨slot, hslot, rfl⟩ := List.mem_map.mp hitem
  exact h.unused content hcontent slot hslot

theorem rename_ne (hcontent : content ∈ group.content) (hother : other ∈ group.content) :
    rename content.name ≠ other.name := by
  intro hname
  exact h.name_ne hcontent (h.built.enable_mem hother) (congrArg some hname.symm)

theorem nodup_renamed :
    ((group.enables.items.map (Item.renameEnable rename)).filterMap Item.name?).Nodup := by
  have hnames := h.built.word.sound.names
  rw [List.Nodup, List.pairwise_filterMap] at hnames
  rw [List.filterMap_map, List.Nodup, List.pairwise_filterMap]
  refine hnames.imp_of_mem ?_
  intro a b ha hb hne aname haname bname hbname heq
  -- A renamed enable meets another one only under its own name, and nothing else at all.
  obtain field | enable | run := a <;> obtain field' | enable' | run' := b
  case enable.enable =>
    obtain ⟨content, hcontent, rfl⟩ := h.built.eq_gate ha
    obtain ⟨other, hother, rfl⟩ := h.built.eq_gate hb
    have hrenamed : rename content.name = rename other.name :=
      (Option.some.inj haname).trans (heq.trans (Option.some.inj hbname).symm)
    exact hne _ rfl _ rfl (h.distinct content hcontent other hother hrenamed)
  case enable.field | enable.reserved =>
    obtain ⟨content, hcontent, rfl⟩ := h.built.eq_gate ha
    exact h.name_ne hcontent hb (hbname.trans (heq.symm ▸ haname.symm))
  case field.enable | reserved.enable =>
    obtain ⟨content, hcontent, rfl⟩ := h.built.eq_gate hb
    exact h.name_ne hcontent ha (haname.trans (heq ▸ hbname.symm))
  all_goals exact hne _ haname _ hbname heq

theorem nodup_flatItems : ((group.flatItems rename).filterMap Item.name?).Nodup := by
  have hpayload : (group.content.map fun content =>
      Item.field (content.gated (rename content.name))).filterMap Item.name? =
        group.content.map CifContent.name := by
    rw [List.filterMap_map]
    exact congrFun (List.filterMap_eq_map (f := CifContent.name)) group.content
  rw [flatItems, List.filterMap_append, hpayload]
  refine h.nodup_renamed.append h.built.nodup_names ?_
  intro name hword hname
  obtain ⟨content, hcontent, rfl⟩ := List.mem_map.mp hname
  obtain ⟨renamed, hrenamed, hsame⟩ := List.mem_filterMap.mp hword
  obtain ⟨item, hitem, rfl⟩ := List.mem_map.mp hrenamed
  obtain field | enable | run := item
  · exact h.built.name_ne_of_field hcontent hitem (Option.some.inj hsame).symm
  · obtain ⟨other, hother, rfl⟩ := h.built.eq_gate hitem
    exact h.rename_ne hother hcontent (Option.some.inj hsame)
  · have hclash := Item.eq_of_name? h.built.word.sound.names (h.built.enable_mem hcontent) hitem
      rfl hsame
    cases hclash

/-- The pairs of the flat structure are the payload fields with their own enables. -/
theorem pairs_iff {enable : Enable} {field : Field} :
    Linkage.Pairs (group.flatItems rename) enable field ↔
      ∃ content ∈ group.content, enable = content.gate (rename content.name) ∧
        field = content.gated (rename content.name) := by
  rw [Linkage.Pairs, mem_flatItems_enable h.built, mem_flatItems_field]
  constructor
  · rintro ⟨⟨content, hcontent, rfl⟩, hfield | ⟨other, hother, rfl⟩, hnamed⟩
    · rcases hnamed with hclaim | hname
      · cases (h.built.open_of_mem hfield).symm.trans hclaim
      · exact absurd (Option.some.inj hname) (h.built.name_ne_of_field hcontent hfield)
    · have hsame : content = other := by
        rcases hnamed with hclaim | hname
        · exact (h.eq_of_rename hother hcontent (Option.some.inj hclaim)).symm
        · exact h.built.eq_of_name hcontent hother (Option.some.inj hname)
      exact ⟨content, hcontent, rfl, by rw [hsame]⟩
  · rintro ⟨content, hcontent, rfl, rfl⟩
    exact ⟨⟨content, hcontent, rfl⟩, .inr ⟨content, hcontent, rfl⟩, .inl rfl⟩

theorem eq_gated {field : Field} {name : String}
    (hfield : Item.field field ∈ group.flatItems rename) (hgate : field.enabledBy = some name) :
    ∃ content ∈ group.content, field = content.gated (rename content.name) ∧
      name = rename content.name := by
  rcases mem_flatItems_field.mp hfield with hword | ⟨content, hcontent, rfl⟩
  · cases (h.built.open_of_mem hword).symm.trans hgate
  · exact ⟨content, hcontent, rfl, (Option.some.inj hgate).symm⟩

theorem settled : Linkage.Settled (group.flatItems rename) where
  agree hpair := by
    obtain ⟨content, _, rfl, rfl⟩ := h.pairs_iff.mp hpair
    exact ⟨rfl, rfl⟩
  known hfield hname := by
    obtain ⟨content, hcontent, rfl, rfl⟩ := h.eq_gated hfield hname
    exact ⟨_, h.pairs_iff.mpr ⟨content, hcontent, rfl, rfl⟩, rfl⟩
  aimed henable := by
    obtain ⟨content, _, rfl⟩ := (mem_flatItems_enable h.built).mp henable
    exact ⟨_, rfl⟩

theorem coherent : Linkage.Coherent (group.flatItems rename) where
  field_eq hf hg := by
    obtain ⟨content, hcontent, rfl, rfl⟩ := h.pairs_iff.mp hf
    obtain ⟨other, hother, hgate, rfl⟩ := h.pairs_iff.mp hg
    rw [h.eq_of_rename hcontent hother (congrArg Enable.name hgate)]
  enable_eq hd he := by
    obtain ⟨content, hcontent, rfl, rfl⟩ := h.pairs_iff.mp hd
    obtain ⟨other, hother, rfl, hgated⟩ := h.pairs_iff.mp he
    have hname := congrArg Field.name hgated
    rw [CifContent.gated, CifContent.gated] at hname
    rw [h.built.eq_of_name hcontent hother hname]
  known hfield hname := by
    obtain ⟨content, hcontent, rfl, rfl⟩ := h.eq_gated hfield hname
    exact ⟨_, (mem_flatItems_enable h.built).mpr ⟨content, hcontent, rfl⟩, rfl⟩
  agrees hpair _ := .inr (h.settled.agree hpair).2
  claimed henable hnone := by
    obtain ⟨content, _, rfl⟩ := (mem_flatItems_enable h.built).mp henable
    cases hnone

/-- Linking leaves the items of the flat structure as they are. -/
theorem map_tie :
    (group.flatItems rename).map (Linkage.tie (group.flatItems rename)) =
      group.flatItems rename := by
  refine (List.map_congr_left ?_).trans (List.map_id _)
  intro item hitem
  exact Linkage.tie_eq_self_of_settled h.settled h.coherent (fun _ hmem _ => hmem)
    (fun _ hmem => hmem) hitem

/-! ## Building the flat structure -/

theorem place : (group.flat rename).place = .ok (group.flatItems rename) := by
  have htotal : Item.totalBits (group.flatItems rename) ≤ Layout.maxBits := by
    have hmax : Layout.maxBits = 65535 * 32 := rfl
    have hshort := h.short
    rw [totalBits_flatItems h.built]
    omega
  refine CifBlueprint.foldlM_append ?_ htotal
  intro item hitem
  have hle : item.bits ≤ Layout.maxBits := (Item.bits_le_totalBits hitem).trans htotal
  obtain field | enable | run := item
  · exact hle
  · obtain ⟨content, _, rfl⟩ := (mem_flatItems_enable h.built).mp hitem
    exact (by decide : 1 ≤ Enable.maxBits)
  · exact hle

theorem build : (group.flat rename).build = .ok (group.flatLayout rename) := by
  have hpositive : ∀ item ∈ group.flatItems rename, 0 < item.bits := by
    rw [flatItems, List.forall_mem_append, List.forall_mem_map, List.forall_mem_map]
    constructor
    · intro item hitem
      rw [Item.bits_renameEnable]
      exact h.built.word.sound.wide item hitem
    · intro content hcontent
      exact Nat.pos_of_ne_zero (h.wide content hcontent)
  have hfreeze : Blueprint.freeze group.name (group.flatItems rename) false =
      .ok (group.flatLayout rename) := by
    refine Blueprint.freeze_eq_ok.mpr ⟨⟨hpositive, h.nodup_flatItems⟩, h.coherent.linkable, ?_⟩
    rw [h.map_tie, flatLayout]
  exact Blueprint.build_iff.mpr ⟨⟨_, h.place, hfreeze⟩, rfl⟩

theorem built_flatLayout : (group.flatLayout rename).Built := by
  refine .fresh rfl ?_ h.build
  intro step hstep inner hinner
  obtain ⟨item, hitem, rfl⟩ := List.mem_map.mp hstep
  obtain field | enable | run := item
  · rcases mem_flatItems_field.mp hitem with hword | ⟨content, hcontent, rfl⟩
    · exact h.built.word.sound.parts _ hword inner hinner
    · have hrecord := (content.record?_gated (rename content.name)).symm.trans hinner
      exact h.built.inner hcontent inner (CifContent.type_of_record? hrecord)
  · cases hinner
  · cases hinner

/-! ## The slots of the flat structure -/

omit h in
theorem length_slots (rename : String → String) : (group.flatLayout rename).slots.length =
    group.enables.slots.length + group.content.length := by
  have hlength := congrArg List.length (items_flatLayout group rename)
  rw [flatItems, List.length_append, List.length_map, List.length_map, Layout.items, Layout.items,
    List.length_map, List.length_map] at hlength
  exact hlength

omit h in
theorem word_slot (rename : String → String) {index : Nat} {slot : Slot}
    (hslot : group.enables.slots[index]? = some slot) :
    ∃ other, (group.flatLayout rename).slots[index]? = some other ∧
      other.item = slot.item.renameEnable rename := by
  apply Layout.exists_slot_of_getElem?_items
  have hitem := Layout.getElem?_items hslot
  have hlt := (List.getElem?_eq_some_iff.mp hitem).1
  rw [items_flatLayout, flatItems, List.getElem?_append_left (by rwa [List.length_map]),
    List.getElem?_map, hitem, Option.map_some]

omit h in
theorem payload_slot (rename : String → String) {index : Nat}
    (hcontent : group.content[index]? = some content) :
    ∃ other, (group.flatLayout rename).slots[group.enables.slots.length + index]? = some other ∧
      other.item = .field (content.gated (rename content.name)) := by
  apply Layout.exists_slot_of_getElem?_items
  have hlength : (group.enables.items.map (Item.renameEnable rename)).length =
      group.enables.slots.length := by rw [List.length_map, Layout.items, List.length_map]
  rw [items_flatLayout, flatItems, List.getElem?_append_right (by rw [hlength]; omega), hlength,
    Nat.add_sub_cancel_left, List.getElem?_map, hcontent, Option.map_some]

omit h in
theorem slot_cases {index : Nat} {other : Slot}
    (hother : (group.flatLayout rename).slots[index]? = some other) :
    (∃ slot, group.enables.slots[index]? = some slot ∧
        other.item = slot.item.renameEnable rename) ∨
      ∃ place content, index = group.enables.slots.length + place ∧
        group.content[place]? = some content ∧
        other.item = .field (content.gated (rename content.name)) := by
  have hbound := (List.getElem?_eq_some_iff.mp hother).1
  rw [length_slots rename] at hbound
  by_cases hlt : index < group.enables.slots.length
  · have hslot := List.getElem?_eq_getElem hlt
    obtain ⟨found, hfound, hitem⟩ := word_slot rename hslot
    obtain rfl := Option.some.inj (hother.symm.trans hfound)
    exact .inl ⟨_, hslot, hitem⟩
  · obtain ⟨place, rfl⟩ := Nat.exists_eq_add_of_le (Nat.le_of_not_lt hlt)
    have hcontent := List.getElem?_eq_getElem (Nat.lt_of_add_lt_add_left hbound)
    obtain ⟨found, hfound, hitem⟩ := payload_slot rename hcontent
    obtain rfl := Option.some.inj (hother.symm.trans hfound)
    exact .inr ⟨place, _, rfl, hcontent, hitem⟩

theorem payload_link (hcontent : content ∈ group.content) {other : Slot}
    (hother : other ∈ (group.flatLayout rename).slots)
    (hitem : other.item = .field (content.gated (rename content.name))) :
    other.link = some content.enable := by
  obtain ⟨gate, hgate, hgateitem⟩ :=
    word_slot rename (h.built.enable_slot hcontent).1
  have hpair : Linkage.Pairs (group.flatLayout rename).items
      (content.gate (rename content.name)) (content.gated (rename content.name)) := by
    rw [items_flatLayout, h.pairs_iff]
    exact ⟨content, hcontent, rfl, rfl⟩
  rw [h.built_flatLayout.linked.link_eq_some hother, hitem]
  exact ⟨gate, hgate, Linkage.couple_field.mpr ⟨_, hgateitem, hpair⟩⟩

theorem enable_link {index : Nat} (hcontent : group.content[index]? = some content) {gate : Slot}
    (hgate : (group.flatLayout rename).slots[content.enable]? = some gate) :
    gate.link = some (group.enables.slots.length + index) := by
  obtain ⟨other, hother, hitem⟩ := payload_slot rename hcontent
  have hlink := h.payload_link (List.mem_of_getElem? hcontent) (List.mem_of_getElem? hother) hitem
  exact (h.built_flatLayout.linked.matched.symmetric _ _ _ _ hother hgate).mp hlink

theorem word_link {other : Slot} (hother : other ∈ (group.flatLayout rename).slots)
    (hword : other.item ∈ group.enables.items) (hsolid : other.item.enable? = none) :
    other.link = none := by
  by_contra hlinked
  obtain ⟨index, hindex⟩ := Option.ne_none_iff_exists'.mp hlinked
  obtain ⟨_, _, enable, field, hpair, ⟨henable, _⟩ | ⟨hfield, _⟩⟩ :=
    (h.built_flatLayout.linked.link_eq_some hother).mp hindex
  · rw [henable] at hsolid
    cases hsolid
  · rw [items_flatLayout, h.pairs_iff] at hpair
    obtain ⟨content, _, _, rfl⟩ := hpair
    have hopen : (content.gated (rename content.name)).enabledBy = none :=
      h.built.open_of_mem (hfield ▸ hword)
    cases hopen

/-! ## Names in the flat structure -/

theorem index?_payload {index : Nat} (hcontent : group.content[index]? = some content) :
    (group.flatLayout rename).index? content.name =
      some (group.enables.slots.length + index) := by
  obtain ⟨other, hother, hitem⟩ := payload_slot rename hcontent
  refine h.built_flatLayout.sound.index?_eq_some.mpr ⟨other, hother, ?_⟩
  rw [Slot.name?, hitem]
  rfl

theorem enable?_of_renamed {item : Item}
    (hitem : item ∈ group.enables.items) {name : String}
    (hname : (item.renameEnable rename).name? = some name)
    (hnew : ∀ content ∈ group.content, name ≠ rename content.name) : item.enable? = none := by
  obtain field | enable | run := item
  · rfl
  · obtain ⟨content, hcontent, rfl⟩ := h.built.eq_gate hitem
    exact absurd (Option.some.inj hname).symm (hnew content hcontent)
  · rfl

/-- A name that is neither a payload field nor new leads to the same item of the word. -/
theorem index?_word {name : String} (hpayload : ∀ content ∈ group.content, name ≠ content.name)
    (hnew : ∀ content ∈ group.content, name ≠ rename content.name) :
    (group.flatLayout rename).index? name = group.enables.index? name := by
  apply Option.ext
  intro index
  rw [h.built_flatLayout.sound.index?_eq_some, h.built.word.sound.index?_eq_some]
  constructor
  · rintro ⟨other, hother, hname⟩
    rcases slot_cases hother with ⟨slot, hslot, hitem⟩ | ⟨place, content, rfl, hcontent, hitem⟩
    · rw [Slot.name?, hitem] at hname
      have hsolid := h.enable?_of_renamed (List.mem_map_of_mem (List.mem_of_getElem? hslot)) hname
        hnew
      rw [Item.renameEnable_eq_self hsolid] at hname
      exact ⟨slot, hslot, hname⟩
    · rw [Slot.name?, hitem] at hname
      have hsame : content.name = name := Option.some.inj hname
      exact absurd hsame.symm (hpayload content (List.mem_of_getElem? hcontent))
  · rintro ⟨slot, hslot, hname⟩
    obtain ⟨other, hother, hitem⟩ := word_slot rename hslot
    have hsolid := h.built.enable?_of_name (List.mem_map_of_mem (List.mem_of_getElem? hslot)) hname
      hpayload
    refine ⟨other, hother, ?_⟩
    rw [Slot.name?, hitem, Item.renameEnable_eq_self hsolid]
    exact hname

/-- What such a name leads to in the word stands in the flat structure as it is, without a link. -/
theorem word_item {name : String} (hpayload : ∀ content ∈ group.content, name ≠ content.name)
    {index : Nat} (hindex : group.enables.index? name = some index) :
    ∃ slot other, group.enables.slots[index]? = some slot ∧
      (group.flatLayout rename).slots[index]? = some other ∧ other.item = slot.item ∧
      slot.link = none ∧ other.link = none := by
  obtain ⟨slot, hslot, hname⟩ := h.built.word.sound.index?_eq_some.mp hindex
  obtain ⟨other, hother, hitem⟩ := word_slot rename hslot
  have hmem : slot.item ∈ group.enables.items := List.mem_map_of_mem (List.mem_of_getElem? hslot)
  have hsolid := h.built.enable?_of_name hmem hname hpayload
  rw [Item.renameEnable_eq_self hsolid] at hitem
  have hlink : other.link = none :=
    h.word_link (List.mem_of_getElem? hother) (hitem ▸ hmem) (hitem ▸ hsolid)
  exact ⟨slot, other, hslot, hother, hitem, h.built.unlinked (List.mem_of_getElem? hslot), hlink⟩

end Flattens

end CifGroup

end RadioPacket
