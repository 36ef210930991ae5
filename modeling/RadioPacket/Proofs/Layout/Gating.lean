import RadioPacket.Proofs.Layout.Staging

/-!
# The two sides of a gate

The link between an enable and a field may be declared on either of them.  Freezing writes the other
side, so the same items are linked either way.  It also relaxes the mode of a field that has not
named its enable, and leaves the mode of one that has.  So the two ways of declaring a gate make the
same layout but for the mode of the gated field.
-/

namespace RadioPacket

/-- The field, in another mode if it has the given name. -/
def Field.withMode (name : String) (mode : Mode) (field : Field) : Field :=
  if field.name = name then { field with mode } else field

/-- The item, in another mode if it is a field of the given name. -/
def Item.withMode (name : String) (mode : Mode) : Item → Item :=
  Item.mapTies id (Field.withMode name mode)

/-- The layout with the field of the given name in another mode. -/
def Layout.withMode (layout : Layout) (name : String) (mode : Mode) : Layout :=
  { layout with
    slots := layout.slots.map fun slot => { slot with item := slot.item.withMode name mode } }

section WithMode

variable {name : String} {mode : Mode}

@[simp] theorem Field.name_withMode (field : Field) :
    (field.withMode name mode).name = field.name := by
  unfold withMode
  split
  · rfl
  · rfl

@[simp] theorem Field.enabledBy_withMode (field : Field) :
    (field.withMode name mode).enabledBy = field.enabledBy := by
  unfold withMode
  split
  · rfl
  · rfl

theorem Item.untied_withMode (item : Item) : (item.withMode name mode).untied = item.untied := by
  cases item with
  | field field =>
      simp only [withMode, mapTies, Field.withMode]
      split
      · rfl
      · rfl
  | enable enable => rfl
  | reserved run => rfl

end WithMode

namespace Linkage

variable {items : List Item} {onField : Field → Field}

/-! ## Changes that linking does not see -/

/-- The items have the same enables, and fields of the same names that name the same enables. -/
structure Alike (items others : List Item) : Prop where
  enables : ∀ enable, Item.enable enable ∈ items ↔ Item.enable enable ∈ others
  kept : ∀ f, Item.field f ∈ items →
    ∃ g, Item.field g ∈ others ∧ g.name = f.name ∧ g.enabledBy = f.enabledBy
  found : ∀ g, Item.field g ∈ others →
    ∃ f, Item.field f ∈ items ∧ f.name = g.name ∧ f.enabledBy = g.enabledBy

namespace Alike

variable {others : List Item}

theorem symm (h : Alike items others) : Alike others items where
  enables enable := (h.enables enable).symm
  kept := h.found
  found := h.kept

theorem exists_pairs (h : Alike items others) {enable : Enable} {g : Field}
    (hpair : Pairs others enable g) :
    ∃ f, Pairs items enable f ∧ f.name = g.name ∧ f.enabledBy = g.enabledBy := by
  obtain ⟨henable, hfield, hnamed⟩ := hpair
  obtain ⟨f, hf, hname, hgate⟩ := h.found g hfield
  exact ⟨f, ⟨(h.enables enable).mpr henable, hf, by rwa [hname, hgate]⟩, hname, hgate⟩

theorem coherent (h : Alike items others) (hnames : (items.filterMap Item.name?).Nodup)
    (hothers : (others.filterMap Item.name?).Nodup) (hcoherent : Coherent items) :
    Coherent others := by
  constructor
  · intro enable a b ha hb
    obtain ⟨f, hf, hfname, _⟩ := h.exists_pairs ha
    obtain ⟨g, hg, hgname, _⟩ := h.exists_pairs hb
    obtain rfl := hcoherent.field_eq hf hg
    exact field_eq_of_name hothers ha.2.1 hb.2.1 (hfname.symm.trans hgname)
  · intro d e field hd he
    obtain ⟨f, hf, hfname, _⟩ := h.exists_pairs hd
    obtain ⟨g, hg, hgname, _⟩ := h.exists_pairs he
    obtain rfl := field_eq_of_name hnames hf.2.1 hg.2.1 (hfname.trans hgname.symm)
    exact hcoherent.enable_eq hf hg
  · intro field name hfield hclaim
    obtain ⟨f, hf, _, hgate⟩ := h.found field hfield
    obtain ⟨enable, henable, hfound⟩ := hcoherent.known hf (hgate.trans hclaim)
    exact ⟨enable, (h.enables enable).mp henable, hfound⟩
  · intro enable field hpair hclaim
    obtain ⟨f, hf, hname, hgate⟩ := h.exists_pairs hpair
    rw [← hname]
    exact hcoherent.agrees hf (hgate.trans hclaim)
  · intro enable henable hnone
    obtain ⟨f, hf, hclaim⟩ := hcoherent.claimed ((h.enables enable).mpr henable) hnone
    obtain ⟨g, hg, _, hgate⟩ := h.kept f hf
    exact ⟨g, hg, hgate.trans hclaim⟩

end Alike

section Unseen

variable (hname : ∀ field, (onField field).name = field.name)
  (hgate : ∀ field, (onField field).enabledBy = field.enabledBy)

include hgate in
theorem isFree_map_fields {enable : String} :
    IsFree (items.map (Item.mapTies id onField)) enable ↔ IsFree items enable := by
  simp only [IsFree, Item.mem_map_field]
  constructor
  · intro h field hfield
    rw [← hgate]
    exact h _ ⟨field, hfield, rfl⟩
  · rintro h _ ⟨field, hfield, rfl⟩
    rw [hgate]
    exact h field hfield

include hgate in
theorem isClaimed_map_fields (enable : String) :
    isClaimed (items.map (Item.mapTies id onField)) enable = isClaimed items enable :=
  isClaimed_congr (isFree_map_fields hgate)

theorem mem_map_enable_id {enable : Enable} :
    Item.enable enable ∈ items.map (Item.mapTies id onField) ↔ Item.enable enable ∈ items := by
  rw [Item.mem_map_enable]
  simp

include hname hgate in
theorem alike_map_fields : Alike items (items.map (Item.mapTies id onField)) where
  enables _ := mem_map_enable_id.symm
  kept field hfield := ⟨_, Item.mem_map_field.mpr ⟨field, hfield, rfl⟩, hname field, hgate field⟩
  found _ hfield := by
    obtain ⟨field, hdeclared, rfl⟩ := Item.mem_map_field.mp hfield
    exact ⟨field, hdeclared, (hname field).symm, (hgate field).symm⟩

include hname hgate in
/-- Linking depends on fields by their names and by the enables that they name. -/
theorem linkable_map_fields (hnames : (items.filterMap Item.name?).Nodup) :
    Linkable (items.map (Item.mapTies id onField)) ↔ Linkable items := by
  have halike : Alike items (items.map (Item.mapTies id onField)) := alike_map_fields hname hgate
  have hsame : (items.map (Item.mapTies id onField)).filterMap Item.name? =
      items.filterMap Item.name? := Item.filterMap_name?_map (fun _ => rfl) hname
  have hchanged := hsame ▸ hnames
  constructor
  · intro h
    exact (halike.symm.coherent hchanged hnames (h.coherent hchanged)).linkable
  · intro h
    exact (halike.coherent hnames hchanged (h.coherent hnames)).linkable

include hname hgate in
theorem tie_map_fields : tie (items.map (Item.mapTies id onField)) = tie items := by
  have hfields : (items.map (Item.mapTies id onField)).filterMap Item.field? =
      (items.filterMap Item.field?).map onField := by
    rw [List.filterMap_map, List.map_filterMap]
    congr 1
    funext item
    cases item with
    | field _ => rfl
    | enable _ => rfl
    | reserved _ => rfl
  have henables : (items.map (Item.mapTies id onField)).filterMap Item.enable? =
      items.filterMap Item.enable? := by
    rw [List.filterMap_map]
    congr 1
    funext item
    cases item with
    | field _ => rfl
    | enable _ => rfl
    | reserved _ => rfl
  have henable : tieEnable (items.map (Item.mapTies id onField)) = tieEnable items := by
    funext enable
    have hclaims : (fun field => field.enabledBy == some enable.name) ∘ onField =
        fun field => field.enabledBy == some enable.name := by
      funext field
      rw [Function.comp_apply, hgate]
    rw [tieEnable, tieEnable, hfields, claimedBy, claimedBy, List.find?_map, hclaims]
    cases (items.filterMap Item.field?).find? fun field => field.enabledBy == some enable.name with
    | none => rfl
    | some field => simp only [Option.map_some, hname]
  have hfield : tieField (items.map (Item.mapTies id onField)) = tieField items := by
    funext field
    rw [tieField, tieField, henables, gatedAmong, gatedAmong]
    simp only [isClaimed_map_fields hgate]
  rw [tie, tie, henable, hfield]

end Unseen

/-! ## The mode of a gated field -/

section Gated

variable {name : String} {mode : Mode}

theorem linkable_withMode (hnames : (items.filterMap Item.name?).Nodup) :
    Linkable (items.map (Item.withMode name mode)) ↔ Linkable items :=
  linkable_map_fields Field.name_withMode Field.enabledBy_withMode hnames

/-- The mode of a field that has named its enable passes through linking. -/
theorem Coherent.tie_withMode (h : Coherent items) (hnames : (items.filterMap Item.name?).Nodup)
    (hgated : ∀ field, Item.field field ∈ items → field.name = name → field.enabledBy ≠ none)
    {item : Item} (hitem : item ∈ items) :
    tie (items.map (Item.withMode name mode)) (item.withMode name mode) =
      (tie items item).withMode name mode := by
  have hsame : tie (items.map (Item.withMode name mode)) = tie items :=
    tie_map_fields Field.name_withMode Field.enabledBy_withMode
  cases item with
  | reserved run => rfl
  | enable enable => rw [hsame]; rfl
  | field field =>
      by_cases hname : field.name = name
      · obtain ⟨gate, hgate⟩ := Option.ne_none_iff_exists'.mp (hgated field hitem hname)
        have hlinkable : Linkable (items.map (Item.withMode name mode)) :=
          (linkable_withMode hnames).mpr h.linkable
        have hnamesAfter : ((items.map (Item.withMode name mode)).filterMap Item.name?).Nodup := by
          rw [Item.filterMap_name?_congr (Item.map_untied_change Item.untied_withMode items)]
          exact hnames
        have hmem : Item.field (field.withMode name mode) ∈ items.map (Item.withMode name mode) :=
          List.mem_map_of_mem hitem
        have hkept := (hlinkable.coherent hnamesAfter).tieField_gated hmem
          ((Field.enabledBy_withMode field).trans hgate)
        exact congrArg Item.field
          (hkept.trans (congrArg (Field.withMode name mode) (h.tieField_gated hitem hgate)).symm)
      · have hself : Item.withMode name mode (.field field) = .field field :=
          congrArg Item.field (if_neg hname)
        have htied : (tieField items field).name = field.name := h.partialTie.name_onField hitem
        rw [hsame, hself]
        refine congrArg Item.field (if_neg ?_).symm
        rw [htied]
        exact hname

end Gated

theorem partner?_withMode {name : String} {mode : Mode} (item : Item) :
    partner? (items.map (Item.withMode name mode)) (item.withMode name mode) =
      partner? items item := by
  have hnamed (enable : String) :
      Item.isEnableNamed enable ∘ Item.withMode name mode = Item.isEnableNamed enable := by
    funext other
    cases other <;> rfl
  have hgatedBy (enable : String) :
      Item.isGatedBy enable ∘ Item.withMode name mode = Item.isGatedBy enable := by
    funext other
    cases other with
    | field field =>
        exact congrArg (· == some enable) (Field.enabledBy_withMode field)
    | enable _ => rfl
    | reserved _ => rfl
  cases item with
  | reserved run => rfl
  | enable enable =>
      simp only [Item.withMode, Item.mapTies, partner?, id, List.findIdx?_map]
      exact congrArg (List.findIdx? · items) (hgatedBy enable.name)
  | field field =>
      simp only [Item.withMode, Item.mapTies, partner?, Field.enabledBy_withMode,
        List.findIdx?_map]
      congr 1
      funext enable
      exact congrArg (List.findIdx? · items) (hnamed enable)

theorem slotsFrom_withMode {name : String} {mode : Mode} (list : List Item) (position : Position) :
    slotsFrom (items.map (Item.withMode name mode)) position (list.map (Item.withMode name mode)) =
      (slotsFrom items position list).map fun slot =>
        { slot with item := slot.item.withMode name mode } := by
  induction list generalizing position with
  | nil => rfl
  | cons item list ih =>
      rw [List.map_cons, slotsFrom, slotsFrom, List.map_cons, partner?_withMode,
        Item.bits_change Item.untied_withMode, ih]

end Linkage

namespace Blueprint

open Linkage

variable {owner name : String} {mode : Mode} {items : List Item} {dynamicSize : Bool}
  {layout : Layout}

theorem laidOut_withMode (resolved : List Item) :
    laidOut owner (resolved.map (Item.withMode name mode)) dynamicSize =
      (laidOut owner resolved dynamicSize).withMode name mode := by
  have hslots : slots (resolved.map (Item.withMode name mode)) =
      (slots resolved).map fun slot => { slot with item := slot.item.withMode name mode } :=
    slotsFrom_withMode resolved .start
  have hbits : Item.totalBits (resolved.map (Item.withMode name mode)) = Item.totalBits resolved :=
    Item.totalBits_congr (Item.map_untied_change Item.untied_withMode resolved)
  have halignment : (alignmentWarning? owner ∘ fun slot : Slot =>
      { slot with item := slot.item.withMode name mode }) = alignmentWarning? owner := by
    funext slot
    obtain ⟨item, position, link⟩ := slot
    cases item with
    | enable _ => rfl
    | reserved _ => rfl
    | field field =>
        simp only [Function.comp_apply, Item.withMode, Item.mapTies, Field.withMode]
        split
        · rfl
        · rfl
  have hwarnings : warnings owner (slots (resolved.map (Item.withMode name mode)))
      (Item.totalBits resolved) = warnings owner (slots resolved) (Item.totalBits resolved) := by
    rw [warnings, warnings, hslots, List.filterMap_map, halignment]
  rw [laidOut, hbits, hwarnings, hslots]
  rfl

/-- Items freeze alike in every mode of a field that has named its enable. -/
theorem freeze_withMode
    (hgated : ∀ field, Item.field field ∈ items → field.name = name → field.enabledBy ≠ none) :
    freeze owner (items.map (Item.withMode name mode)) dynamicSize = .ok layout ↔
      ∃ other, freeze owner items dynamicSize = .ok other ∧ layout = other.withMode name mode := by
  have hwide : (∀ item ∈ items.map (Item.withMode name mode), 0 < item.bits) ↔
      ∀ item ∈ items, 0 < item.bits := by
    simp [Item.bits_change Item.untied_withMode]
  simp only [freeze_eq_ok, hwide,
    Item.filterMap_name?_congr (Item.map_untied_change Item.untied_withMode items)]
  have htied (hnames : (items.filterMap Item.name?).Nodup) (h : Linkable items) :
      laidOut owner ((items.map (Item.withMode name mode)).map
          (tie (items.map (Item.withMode name mode)))) dynamicSize =
        (laidOut owner (items.map (tie items)) dynamicSize).withMode name mode := by
    rw [← laidOut_withMode, List.map_map, List.map_map]
    exact congrArg (laidOut owner · dynamicSize) (List.map_congr_left fun item hitem =>
      (h.coherent hnames).tie_withMode hnames hgated hitem)
  constructor
  · rintro ⟨hlegal, hlinkable, rfl⟩
    have hbefore := (linkable_withMode hlegal.2).mp hlinkable
    exact ⟨_, ⟨hlegal, hbefore, rfl⟩, htied hlegal.2 hbefore⟩
  · rintro ⟨_, ⟨hlegal, hlinkable, rfl⟩, rfl⟩
    exact ⟨hlegal, (linkable_withMode hlegal.2).mpr hlinkable, (htied hlegal.2 hlinkable).symm⟩

end Blueprint

/-! ## From one side to the other -/

/-- The enable, naming the given field or none if it has the given name. -/
def Enable.naming (gate : String) (field : Option String) (enable : Enable) : Enable :=
  if enable.name = gate then { enable with field } else enable

/-- The field, tied to an enable if it has the given name. -/
def Field.gatedAs (name gate : String) (field : Field) : Field :=
  if field.name = name then field.gatedBy gate else field

/-- The field, naming an enable and in a mode of its own if it has the given name. -/
def Field.naming (name gate : String) (mode : Mode) (field : Field) : Field :=
  if field.name = name then { field with enabledBy := some gate, mode } else field

/-- The item with the link between an enable and a field declared on the field. -/
def Item.gateOnField (gate field : String) (mode : Mode) : Item → Item :=
  Item.mapTies (Enable.naming gate none) (Field.naming field gate mode)

/-- The step that brings in the item so declared. -/
def Step.gateOnField (gate field : String) (mode : Mode) : Step → Step
  | .append item => .append (item.gateOnField gate field mode)
  | .rebind position declared => .rebind position (declared.naming field gate mode)

section Naming

variable {gate name : String} {mode : Mode}

@[simp] theorem Enable.name_naming (field : Option String) (enable : Enable) :
    (enable.naming gate field).name = enable.name := by
  unfold naming
  split
  · rfl
  · rfl

theorem Item.untied_naming (field : Option String) (item : Item) {onField : Field → Field}
    (hfield : ∀ declared, (Item.field (onField declared)).untied = (Item.field declared).untied) :
    (item.mapTies (Enable.naming gate field) onField).untied = item.untied := by
  cases item with
  | field declared => exact hfield declared
  | enable declared =>
      simp only [mapTies, Enable.naming]
      split
      · rfl
      · rfl
  | reserved run => rfl

theorem Field.untied_naming (field : Field) :
    (Item.field (field.naming name gate mode)).untied = (Item.field field).untied := by
  unfold naming
  split
  · rfl
  · rfl

theorem Field.untied_gatedAs (field : Field) :
    (Item.field (field.gatedAs name gate)).untied = (Item.field field).untied := by
  unfold gatedAs
  split
  · rfl
  · rfl

theorem Item.untied_gateOnField (item : Item) :
    (item.gateOnField gate name mode).untied = item.untied :=
  item.untied_naming none Field.untied_naming

theorem Step.item_gateOnField (step : Step) :
    (step.gateOnField gate name mode).item = step.item.gateOnField gate name mode := by
  cases step with
  | append item => rfl
  | rebind position declared => rfl

end Naming

namespace Linkage

variable {items : List Item} {enable : Enable} {field : Field}

theorem partialTie_gatedAs (hnames : (items.filterMap Item.name?).Nodup)
    (henable : Item.enable enable ∈ items) (hfield : Item.field field ∈ items)
    (hlink : enable.field = some field.name) (hopen : field.enabledBy = none) :
    PartialTie items id (Field.gatedAs field.name enable.name) := by
  constructor
  · exact fun _ => .inl rfl
  · intro declared hdeclared
    by_cases hname : declared.name = field.name
    · obtain rfl := field_eq_of_name hnames hdeclared hfield hname
      exact .inr ⟨enable, ⟨henable, hfield, .inr hlink⟩, hopen, if_pos rfl⟩
    · exact .inl (if_neg hname)

theorem partialTie_naming (hnames : (items.filterMap Item.name?).Nodup)
    (henable : Item.enable enable ∈ items) (hfield : Item.field field ∈ items) (mode : Mode) :
    PartialTie (items.map (Item.gateOnField enable.name field.name mode))
      (Enable.naming enable.name (some field.name)) id := by
  constructor
  · intro _ hdeclared
    obtain ⟨declared, hmem, rfl⟩ := Item.mem_map_enable.mp hdeclared
    by_cases hname : declared.name = enable.name
    · obtain rfl := enable_eq_of_name hnames hmem henable hname
      have hnaming : Item.field { field with enabledBy := some declared.name, mode } ∈
          items.map (Item.gateOnField declared.name field.name mode) :=
        Item.mem_map_field.mpr ⟨field, hfield, if_pos rfl⟩
      have hopened : declared.naming declared.name none = { declared with field := none } :=
        if_pos rfl
      rw [hopened] at hdeclared ⊢
      exact .inr ⟨_, ⟨hdeclared, hnaming, .inl rfl⟩, .inl rfl, if_pos rfl⟩
    · refine .inl (if_neg ?_)
      rw [Enable.name_naming]
      exact hname
  · exact fun _ => .inl rfl

/-- From either side, the two come to name each other. -/
theorem naming_gateOnField (hnames : (items.filterMap Item.name?).Nodup)
    (henable : Item.enable enable ∈ items) (hfield : Item.field field ∈ items)
    (hlink : enable.field = some field.name) :
    (items.map (Item.gateOnField enable.name field.name field.mode.gated)).map
        (Item.mapTies (Enable.naming enable.name (some field.name)) id) =
      items.map (Item.mapTies id (Field.gatedAs field.name enable.name)) := by
  rw [List.map_map]
  apply List.map_congr_left
  intro item hitem
  cases item with
  | reserved run => rfl
  | enable declared =>
      refine congrArg Item.enable ?_
      by_cases hname : declared.name = enable.name
      · obtain rfl := enable_eq_of_name hnames hitem henable hname
        simp only [Enable.naming, if_true, ← hlink, id]
      · simp only [Enable.naming, hname, if_false, id]
  | field declared =>
      refine congrArg Item.field ?_
      by_cases hname : declared.name = field.name
      · obtain rfl := field_eq_of_name hnames hitem hfield hname
        simp only [Field.naming, Field.gatedAs, if_true, id]
        rfl
      · simp only [Field.naming, Field.gatedAs, hname, if_false, id]

end Linkage

namespace Blueprint

open Linkage

variable {owner : String} {items : List Item} {dynamicSize : Bool} {layout : Layout}
  {enable : Enable} {field : Field}

/-- A gate that is declared on the field freezes as the one that is declared on the enable, in the
mode that linking gives to the field. -/
theorem freeze_gateOnField_gated (hnames : (items.filterMap Item.name?).Nodup)
    (henable : Item.enable enable ∈ items) (hfield : Item.field field ∈ items)
    (hlink : enable.field = some field.name) (hopen : field.enabledBy = none) :
    freeze owner (items.map (Item.gateOnField enable.name field.name field.mode.gated))
        dynamicSize = .ok layout ↔
      freeze owner items dynamicSize = .ok layout := by
  have hfromField : freeze owner ((items.map
      (Item.gateOnField enable.name field.name field.mode.gated)).map
        (Item.mapTies (Enable.naming enable.name (some field.name)) id)) dynamicSize =
          .ok layout ↔ _ :=
    freeze_mapTies (fun item => item.untied_naming _ fun _ => rfl) fun _ =>
      partialTie_naming hnames henable hfield field.mode.gated
  have huntied (item : Item) : (item.mapTies id (Field.gatedAs field.name enable.name)).untied =
      item.untied := by
    cases item with
    | field declared => exact declared.untied_gatedAs
    | enable _ => rfl
    | reserved _ => rfl
  rw [← hfromField, naming_gateOnField hnames henable hfield hlink]
  exact freeze_mapTies huntied fun _ => partialTie_gatedAs hnames henable hfield hlink hopen

/-- A gate that is declared on the field freezes as the one that is declared on the enable, but for
the mode of the field. -/
theorem freeze_gateOnField (hnames : (items.filterMap Item.name?).Nodup)
    (henable : Item.enable enable ∈ items) (hfield : Item.field field ∈ items)
    (hlink : enable.field = some field.name) (hopen : field.enabledBy = none) (mode : Mode) :
    freeze owner (items.map (Item.gateOnField enable.name field.name mode)) dynamicSize =
        .ok layout ↔
      ∃ other, freeze owner items dynamicSize = .ok other ∧
        layout = other.withMode field.name mode := by
  let gated := items.map (Item.gateOnField enable.name field.name field.mode.gated)
  have hmodes : items.map (Item.gateOnField enable.name field.name mode) =
      gated.map (Item.withMode field.name mode) := by
    rw [List.map_map]
    apply List.map_congr_left
    intro item _
    cases item with
    | reserved run => rfl
    | enable declared => rfl
    | field declared =>
        refine congrArg Item.field ?_
        by_cases hname : declared.name = field.name
        · simp only [Field.naming, Field.withMode, hname, if_true]
        · simp only [Field.naming, Field.withMode, hname, if_false]
  have hgated : ∀ declared, Item.field declared ∈ gated → declared.name = field.name →
      declared.enabledBy ≠ none := by
    intro _ hdeclared hname
    obtain ⟨declared, _, rfl⟩ := Item.mem_map_field.mp hdeclared
    unfold Field.naming at hname ⊢
    split
    · nofun
    · next hother =>
        rw [if_neg hother] at hname
        exact absurd hname hother
  rw [hmodes, freeze_withMode hgated]
  simp only [gated, freeze_gateOnField_gated hnames henable hfield hlink hopen]

theorem mem_of_freeze (h : freeze owner items dynamicSize = .ok layout)
    (henable : Item.enable enable ∈ items) (hfield : Item.field field ∈ items)
    (hlink : enable.field = some field.name) (hopen : field.enabledBy = none) :
    Item.field (field.gatedBy enable.name) ∈ layout.items := by
  obtain ⟨⟨_, hnames⟩, hlinkable, rfl⟩ := freeze_eq_ok.mp h
  rw [items_laidOut, ← (hlinkable.coherent hnames).tieField_eq ⟨henable, hfield, .inr hlink⟩ hopen]
  exact List.mem_map_of_mem hfield

/-! ## Whole blueprints -/

theorem place_gateOnField (owner gate name : String) (mode : Mode) (steps : List Step)
    (base : List Item) :
    (steps.map (Step.gateOnField gate name mode)).foldlM (placeStep owner)
        (base.map (Item.gateOnField gate name mode)) =
      (steps.foldlM (placeStep owner) base).map (List.map (Item.gateOnField gate name mode)) := by
  rw [List.foldlM_map]
  apply Fallible.foldlM_map
  intro step _ placed
  cases step with
  | append item => exact placeItem_map Item.untied_gateOnField item placed
  | rebind position declared => exact placeRebound_map Item.untied_gateOnField rfl placed position

variable {blueprint : Blueprint}

theorem map_gateOnField_eq_self {gate name : String} {mode : Mode}
    (henable : ∀ item ∈ items, item.isReserved = false → item.name? ≠ some gate)
    (hfield : ∀ item ∈ items, item.isReserved = false → item.name? ≠ some name) :
    items.map (Item.gateOnField gate name mode) = items := by
  apply Item.map_mapTies_eq_self
  · intro declared hdeclared
    refine if_neg fun hname => henable _ hdeclared rfl ?_
    exact congrArg some hname
  · intro declared hdeclared
    refine if_neg fun hname => hfield _ hdeclared rfl ?_
    exact congrArg some hname

/-- When what the steps place has distinct names, the base has no items of the names that the steps
bring in, so it does not change with them. -/
theorem base_gateOnField {steps : List Step} {base placed : List Item}
    (hplace : steps.foldlM (placeStep owner) base = .ok placed)
    (hnames : (placed.filterMap Item.name?).Nodup)
    (henable : ∃ step ∈ steps, step.item.untied = (Item.enable enable).untied)
    (hfield : ∃ step ∈ steps, step.item.untied = (Item.field field).untied) (mode : Mode) :
    base.map (Item.gateOnField enable.name field.name mode) = base := by
  have hother {item : Item} (hsolid : item.isReserved = false)
      (hbrought : ∃ step ∈ steps, step.item.untied = item.untied) :
      ∀ old ∈ base, old.isReserved = false → old.name? ≠ item.name? := by
    obtain ⟨step, hstep, hsame⟩ := hbrought
    have hreserved : step.item.isReserved = false := by
      rw [← Item.isReserved_untied, hsame, Item.isReserved_untied, hsolid]
    have hname : step.item.name? = item.name? := by
      rw [← Item.name?_untied, hsame, Item.name?_untied]
    intro old hmem hold
    rw [← hname]
    exact fresh_of_place hplace hnames hstep hreserved hmem hold
  exact map_gateOnField_eq_self (hother rfl henable) (hother rfl hfield)

theorem mem_of_place_item {placed : List Item} {item : Item} (h : blueprint.place = .ok placed)
    (hitem : ∃ step ∈ blueprint.steps, step.item = item) (hsolid : item.isReserved = false) :
    item ∈ placed := by
  obtain ⟨step, hstep, rfl⟩ := hitem
  exact mem_of_place_step h hstep hsolid

/-- A build with a gate that is declared on the field is the build with the gate declared on the
enable, but for the mode of the field. -/
theorem build_gateOnField (henable : ∃ step ∈ blueprint.steps, step.item = .enable enable)
    (hfield : ∃ step ∈ blueprint.steps, step.item = .field field)
    (hlink : enable.field = some field.name) (hopen : field.enabledBy = none) (mode : Mode) :
    { blueprint with
      steps := blueprint.steps.map (Step.gateOnField enable.name field.name mode) }.build =
        .ok layout ↔
      ∃ other, blueprint.build = .ok other ∧ layout = other.withMode field.name mode := by
  have hfreeze {placed : List Item} (hplace : blueprint.place = .ok placed)
      (hnames : (placed.filterMap Item.name?).Nodup) :
      freeze blueprint.name (placed.map (Item.gateOnField enable.name field.name mode))
          blueprint.dynamicSize = .ok layout ↔
        ∃ other, freeze blueprint.name placed blueprint.dynamicSize = .ok other ∧
          layout = other.withMode field.name mode :=
    freeze_gateOnField hnames (mem_of_place_item hplace henable rfl)
      (mem_of_place_item hplace hfield rfl) hlink hopen mode
  obtain ⟨enableStep, henableStep, henableItem⟩ := henable
  obtain ⟨fieldStep, hfieldStep, hfieldItem⟩ := hfield
  have hplaces (hkept : blueprint.base.map (Item.gateOnField enable.name field.name mode) =
      blueprint.base) :
      (blueprint.steps.map (Step.gateOnField enable.name field.name mode)).foldlM
          (placeStep blueprint.name) blueprint.base =
        blueprint.place.map (List.map (Item.gateOnField enable.name field.name mode)) := by
    have h := place_gateOnField blueprint.name enable.name field.name mode blueprint.steps
      blueprint.base
    rwa [hkept] at h
  rw [build_iff]
  constructor
  · rintro ⟨⟨changed, hchanged, hfrozen⟩, hobjection⟩
    obtain ⟨⟨_, hnames⟩, _⟩ := freeze_eq_ok.mp hfrozen
    have hbrought {step : Step} (hstep : step ∈ blueprint.steps) :
        ∃ own ∈ blueprint.steps.map (Step.gateOnField enable.name field.name mode),
          own.item.untied = step.item.untied := by
      refine ⟨_, List.mem_map_of_mem hstep, ?_⟩
      rw [Step.item_gateOnField, Item.untied_gateOnField]
    have hkept := base_gateOnField hchanged hnames (henableItem ▸ hbrought henableStep)
      (hfieldItem ▸ hbrought hfieldStep) mode
    obtain ⟨placed, hplace, rfl⟩ := Fallible.map_eq_ok.mp ((hplaces hkept).symm.trans hchanged)
    rw [Item.filterMap_name?_congr
      (Item.map_untied_change Item.untied_gateOnField placed)] at hnames
    obtain ⟨other, hother, rfl⟩ := (hfreeze hplace hnames).mp hfrozen
    exact ⟨other, build_iff.mpr ⟨⟨placed, hplace, hother⟩, hobjection⟩, rfl⟩
  · rintro ⟨other, hbuild, rfl⟩
    obtain ⟨⟨placed, hplace, hother⟩, hobjection⟩ := build_iff.mp hbuild
    obtain ⟨⟨_, hnames⟩, _⟩ := freeze_eq_ok.mp hother
    have hkept := base_gateOnField hplace hnames ⟨_, henableStep, congrArg Item.untied henableItem⟩
      ⟨_, hfieldStep, congrArg Item.untied hfieldItem⟩ mode
    exact ⟨⟨_, (hplaces hkept).trans (Fallible.map_eq_ok.mpr ⟨placed, hplace, rfl⟩),
      (hfreeze hplace hnames).mpr ⟨other, hother, rfl⟩⟩, hobjection⟩

theorem gated_of_build (h : blueprint.build = .ok layout)
    (henable : ∃ step ∈ blueprint.steps, step.item = .enable enable)
    (hfield : ∃ step ∈ blueprint.steps, step.item = .field field)
    (hlink : enable.field = some field.name) (hopen : field.enabledBy = none) :
    Item.field (field.gatedBy enable.name) ∈ layout.items := by
  obtain ⟨⟨placed, hplace, hfreeze⟩, _⟩ := build_iff.mp h
  exact mem_of_freeze hfreeze (mem_of_place_item hplace henable rfl)
    (mem_of_place_item hplace hfield rfl) hlink hopen

end Blueprint

end RadioPacket
