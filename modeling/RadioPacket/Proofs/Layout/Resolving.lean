import Mathlib.Data.List.Find
import RadioPacket.Proofs.Layout.Linking

/-!
# Resolving in closed form

Resolving runs over the items twice, and each run looks at what it has written before.  When the
items have distinct names, what becomes of an item depends on the declared items alone, and not on
the order in which they are taken: an enable names the field that claims it, and a field is gated
by the enable that names it and that no field claims.  The conditions under which both runs
succeed are conditions on the declared items as well.
-/

namespace RadioPacket

namespace Item

theorem mem_filterMap_field? {items : List Item} {field : Field} :
    field ∈ items.filterMap field? ↔ Item.field field ∈ items := by
  rw [List.mem_filterMap]
  constructor
  · rintro ⟨item, hitem, hfield⟩
    cases item with
    | field other =>
        cases hfield
        exact hitem
    | enable _ => cases hfield
    | reserved _ => cases hfield
  · intro hmem
    exact ⟨.field field, hmem, rfl⟩

theorem mem_filterMap_enable? {items : List Item} {enable : Enable} :
    enable ∈ items.filterMap enable? ↔ Item.enable enable ∈ items := by
  rw [List.mem_filterMap]
  constructor
  · rintro ⟨item, hitem, henable⟩
    cases item with
    | field _ => cases henable
    | enable other =>
        cases henable
        exact hitem
    | reserved _ => cases henable
  · intro hmem
    exact ⟨.enable enable, hmem, rfl⟩

/-- Changes the enables and the fields among items. -/
def mapTies (onEnable : Enable → Enable) (onField : Field → Field) : Item → Item
  | .enable e => .enable (onEnable e)
  | .field f => .field (onField f)
  | .reserved r => .reserved r

section MapTies

variable {onEnable : Enable → Enable} {onField : Field → Field} {items : List Item}

theorem mem_map_enable {enable : Enable} :
    Item.enable enable ∈ items.map (mapTies onEnable onField) ↔
      ∃ declared, Item.enable declared ∈ items ∧ onEnable declared = enable := by
  rw [List.mem_map]
  constructor
  · rintro ⟨item, hitem, hchange⟩
    cases item with
    | field _ => cases hchange
    | enable declared => exact ⟨declared, hitem, Item.enable.inj hchange⟩
    | reserved _ => cases hchange
  · rintro ⟨declared, hmem, rfl⟩
    exact ⟨_, hmem, rfl⟩

theorem mem_map_field {field : Field} :
    Item.field field ∈ items.map (mapTies onEnable onField) ↔
      ∃ declared, Item.field declared ∈ items ∧ onField declared = field := by
  rw [List.mem_map]
  constructor
  · rintro ⟨item, hitem, hchange⟩
    cases item with
    | field declared => exact ⟨declared, hitem, Item.field.inj hchange⟩
    | enable _ => cases hchange
    | reserved _ => cases hchange
  · rintro ⟨declared, hmem, rfl⟩
    exact ⟨_, hmem, rfl⟩

theorem filterMap_name?_map (henable : ∀ enable, (onEnable enable).name = enable.name)
    (hfield : ∀ field, (onField field).name = field.name) :
    (items.map (mapTies onEnable onField)).filterMap name? = items.filterMap name? := by
  rw [List.filterMap_map]
  congr 1
  funext item
  cases item with
  | field field => exact congrArg some (hfield field)
  | enable enable => exact congrArg some (henable enable)
  | reserved _ => rfl

theorem map_mapTies_eq_self
    (henable : ∀ enable, Item.enable enable ∈ items → onEnable enable = enable)
    (hfield : ∀ field, Item.field field ∈ items → onField field = field) :
    items.map (mapTies onEnable onField) = items := by
  have hsame : ∀ item ∈ items, mapTies onEnable onField item = item := by
    intro item hitem
    cases item with
    | field field => rw [mapTies, hfield field hitem]
    | enable enable => rw [mapTies, henable enable hitem]
    | reserved _ => rfl
  rw [List.map_congr_left hsame, List.map_id']

end MapTies

end Item

namespace Linkage

variable {layout : String} {items : List Item}

/-! ## Looking up by name -/

section Lookup

variable (hnames : (items.filterMap Item.name?).Nodup)

include hnames

theorem field_eq_of_name {f g : Field} (hf : Item.field f ∈ items) (hg : Item.field g ∈ items)
    (heq : f.name = g.name) : f = g := by
  have hitem := Item.eq_of_name? hnames hf hg rfl (congrArg some heq.symm)
  exact Item.field.inj hitem

theorem enable_eq_of_name {d e : Enable} (hd : Item.enable d ∈ items)
    (he : Item.enable e ∈ items) (heq : d.name = e.name) : d = e := by
  have hitem := Item.eq_of_name? hnames hd he rfl (congrArg some heq.symm)
  exact Item.enable.inj hitem

theorem enable?_eq_some {name : String} {enable : Enable} :
    enable? items name = some enable ↔ Item.enable enable ∈ items ∧ enable.name = name := by
  rw [enable?, Option.bind_eq_some_iff]
  constructor
  · rintro ⟨item, hfound, henable⟩
    have hmem := List.mem_of_find?_eq_some hfound
    have hnamed := List.find?_some hfound
    cases item with
    | field _ => cases henable
    | enable other =>
        cases henable
        exact ⟨hmem, by simpa [Item.isEnableNamed] using hnamed⟩
    | reserved _ => cases henable
  · rintro ⟨hmem, rfl⟩
    have hsome : (items.find? (Item.isEnableNamed enable.name)).isSome := by
      rw [List.find?_isSome]
      exact ⟨_, hmem, by simp [Item.isEnableNamed]⟩
    obtain ⟨item, hfound⟩ := Option.isSome_iff_exists.mp hsome
    have hnamed := List.find?_some hfound
    refine ⟨item, hfound, ?_⟩
    cases item with
    | field _ => simp [Item.isEnableNamed] at hnamed
    | enable other =>
        have hname : other.name = enable.name := by simpa [Item.isEnableNamed] using hnamed
        rw [enable_eq_of_name hnames (List.mem_of_find?_eq_some hfound) hmem hname]
        rfl
    | reserved _ => simp [Item.isEnableNamed] at hnamed

theorem field?_eq_some {name : String} {field : Field} :
    field? items name = some field ↔ Item.field field ∈ items ∧ field.name = name := by
  rw [field?, Option.bind_eq_some_iff]
  constructor
  · rintro ⟨item, hfound, hfield⟩
    have hmem := List.mem_of_find?_eq_some hfound
    have hnamed := List.find?_some hfound
    cases item with
    | field other =>
        cases hfield
        exact ⟨hmem, by simpa [Item.name?] using hnamed⟩
    | enable _ => cases hfield
    | reserved _ => cases hfield
  · rintro ⟨hmem, rfl⟩
    have hsome : (items.find? fun item => item.name? == some field.name).isSome := by
      rw [List.find?_isSome]
      exact ⟨_, hmem, by simp [Item.name?]⟩
    obtain ⟨item, hfound⟩ := Option.isSome_iff_exists.mp hsome
    have hnamed : item.name? = some field.name := by simpa using List.find?_some hfound
    have hitem := Item.eq_of_name? hnames (List.mem_of_find?_eq_some hfound) hmem hnamed rfl
    exact ⟨item, hfound, by rw [hitem]; rfl⟩

end Lookup

/-- No field claims the enable. -/
def IsFree (items : List Item) (enable : String) : Prop :=
  ∀ field, Item.field field ∈ items → field.enabledBy ≠ some enable

theorem isClaimed_eq_false {enable : String} :
    isClaimed items enable = false ↔ IsFree items enable := by
  rw [isClaimed, List.any_eq_false]
  constructor
  · intro h field hfield heq
    exact h _ hfield (by simp [Item.isGatedBy, heq])
  · intro h item hitem hgated
    cases item with
    | field field => exact h field hitem (by simpa [Item.isGatedBy] using hgated)
    | enable _ => cases hgated
    | reserved _ => cases hgated

/-! ## The fields claim their enables -/

/-- An enable with the name of the first of some fields that claims it. -/
def claimedBy (fields : List Field) (enable : Enable) : Enable :=
  match fields.find? fun field => field.enabledBy == some enable.name with
  | some field => { enable with field := some field.name }
  | none => enable

/-- What some fields write into an item when they claim their enables. -/
def attach (fields : List Field) : Item → Item := Item.mapTies (claimedBy fields) id

/-- The enable that a field names exists, and names no other field. -/
def Claimable (items : List Item) (field : Field) : Prop :=
  ∀ name, field.enabledBy = some name → ∃ enable, Item.enable enable ∈ items ∧
    enable.name = name ∧ (enable.field = none ∨ enable.field = some field.name)

/-- Fields that name the same enable have the same name. -/
def Agree (f g : Field) : Prop :=
  ∀ name, f.enabledBy = some name → g.enabledBy = some name → f.name = g.name

theorem claimedBy_singleton (field : Field) (enable : Enable) :
    claimedBy [field] enable =
      if field.enabledBy = some enable.name then { enable with field := some field.name }
      else enable := by
  by_cases h : field.enabledBy = some enable.name
  · simp [claimedBy, h]
  · simp [claimedBy, h]

@[simp] theorem name_claimedBy (fields : List Field) (enable : Enable) :
    (claimedBy fields enable).name = enable.name := by
  unfold claimedBy
  split
  · rfl
  · rfl

theorem claimedBy_claimedBy {field : Field} {fields : List Field}
    (h : ∀ g ∈ fields, Agree field g) (enable : Enable) :
    claimedBy fields (claimedBy [field] enable) = claimedBy (field :: fields) enable := by
  rw [claimedBy_singleton]
  by_cases hclaimed : field.enabledBy = some enable.name
  · -- A later claim of the same enable writes the name that stands there already.
    rw [if_pos hclaimed]
    simp only [claimedBy, List.find?_cons, hclaimed, beq_self_eq_true]
    split
    · next g hfound =>
        have hg : g.enabledBy = some enable.name := by simpa using List.find?_some hfound
        rw [h g (List.mem_of_find?_eq_some hfound) _ hclaimed hg]
    · rfl
  · simp [claimedBy, hclaimed]

theorem attach_attach {field : Field} {fields : List Field} (h : ∀ g ∈ fields, Agree field g) :
    (items.map (attach [field])).map (attach fields) = items.map (attach (field :: fields)) := by
  rw [List.map_map]
  apply List.map_congr_left
  intro item _
  cases item with
  | field _ => rfl
  | enable enable => exact congrArg Item.enable (claimedBy_claimedBy h enable)
  | reserved _ => rfl

theorem names_attach (fields : List Field) :
    (items.map (attach fields)).filterMap Item.name? = items.filterMap Item.name? :=
  Item.filterMap_name?_map (name_claimedBy fields) fun _ => rfl

theorem setGatedField_eq_map (enable field : String) :
    setGatedField enable field items = items.map (Item.mapTies (fun declared =>
      if declared.name = enable then { declared with field := some field } else declared) id) := by
  apply List.map_congr_left
  intro item _
  cases item with
  | field _ => rfl
  | reserved _ => rfl
  | enable declared =>
      simp only [Item.mapTies]
      split
      · rfl
      · rfl

theorem setGatedField_eq_attach {field : Field} {name : String}
    (hclaim : field.enabledBy = some name) :
    setGatedField name field.name items = items.map (attach [field]) := by
  have hsame : (fun enable : Enable =>
      if enable.name = name then { enable with field := some field.name } else enable) =
        claimedBy [field] := by
    funext enable
    simp only [claimedBy_singleton, hclaim, Option.some.injEq, eq_comm]
  rw [setGatedField_eq_map, attach, hsame]

theorem setGatedField_eq_self (hnames : (items.filterMap Item.name?).Nodup) {enable : Enable}
    (hmem : Item.enable enable ∈ items) {field : String} (hfield : enable.field = some field) :
    setGatedField enable.name field items = items := by
  rw [setGatedField_eq_map]
  apply Item.map_mapTies_eq_self
  · intro other hother
    by_cases hname : other.name = enable.name
    · obtain rfl := enable_eq_of_name hnames hother hmem hname
      rw [if_pos rfl, ← hfield]
    · rw [if_neg hname]
  · intro _ _
    rfl

/-- One field claims its enable exactly when it may, and writes its own name. -/
theorem claim_eq_ok (hnames : (items.filterMap Item.name?).Nodup) {field : Field}
    {next : List Item} :
    claim layout items field = .ok next ↔
      Claimable items field ∧ next = items.map (attach [field]) := by
  cases hclaim : field.enabledBy with
  | none =>
      have hsame : items.map (attach [field]) = items :=
        Item.map_mapTies_eq_self (fun enable _ => by simp [claimedBy_singleton, hclaim])
          fun _ _ => rfl
      have hmay : Claimable items field := by
        intro name hname
        cases hclaim.symm.trans hname
      simp only [claim, hclaim, hsame, hmay, true_and, Except.ok.injEq]
      exact eq_comm
  | some name =>
      have hmay : Claimable items field ↔ ∃ enable, enable? items name = some enable ∧
          (enable.field = none ∨ enable.field = some field.name) := by
        simp only [Claimable, hclaim, Option.some.injEq, forall_eq', enable?_eq_some hnames,
          and_assoc]
      rw [hmay, ← setGatedField_eq_attach hclaim]
      simp only [claim, hclaim]
      cases henable : enable? items name with
      | none => simp
      | some enable =>
          obtain ⟨hmem, rfl⟩ := (enable?_eq_some hnames).mp henable
          cases hlinked : enable.field with
          | none => simp [hlinked, eq_comm]
          | some linked =>
              by_cases hsame : linked = field.name
              · have hkept := setGatedField_eq_self hnames hmem (hsame ▸ hlinked)
                simp [hlinked, hsame, hkept, eq_comm]
              · simp [hlinked, hsame]

theorem mem_attach_enable {fields : List Field} {enable : Enable} :
    Item.enable enable ∈ items.map (attach fields) ↔
      ∃ declared, Item.enable declared ∈ items ∧ claimedBy fields declared = enable :=
  Item.mem_map_enable

theorem mem_attach_field {fields : List Field} {field : Field} :
    Item.field field ∈ items.map (attach fields) ↔ Item.field field ∈ items := by
  rw [attach, Item.mem_map_field]
  simp

theorem isFree_attach {fields : List Field} {enable : String} :
    IsFree (items.map (attach fields)) enable ↔ IsFree items enable := by
  simp only [IsFree, mem_attach_field]

/-- After a claim, another field may claim exactly when it might before and agrees with the
first. -/
theorem claimable_attach (hnames : (items.filterMap Item.name?).Nodup) {f g : Field}
    (hf : Claimable items f) :
    Claimable (items.map (attach [f])) g ↔ Claimable items g ∧ Agree f g := by
  constructor
  · intro h
    have hboth : ∀ name, g.enabledBy = some name → ∃ enable, Item.enable enable ∈ items ∧
        enable.name = name ∧ (f.enabledBy = some name → f.name = g.name) ∧
          (enable.field = none ∨ enable.field = some g.name) := by
      intro name hname
      obtain ⟨written, hwritten, rfl, hnamed⟩ := h name hname
      obtain ⟨enable, hmem, hattach⟩ := mem_attach_enable.mp hwritten
      rw [claimedBy_singleton] at hattach
      by_cases hclaimed : f.enabledBy = some enable.name
      · rw [if_pos hclaimed] at hattach
        subst hattach
        have hsame : f.name = g.name := by simpa using hnamed
        obtain ⟨other, hother, hothername, hfirst⟩ := hf _ hclaimed
        obtain rfl := enable_eq_of_name hnames hother hmem hothername
        exact ⟨other, hother, rfl, fun _ => hsame, hsame ▸ hfirst⟩
      · rw [if_neg hclaimed] at hattach
        subst hattach
        exact ⟨enable, hmem, rfl, fun hclaim => absurd hclaim hclaimed, hnamed⟩
    constructor
    · intro name hname
      obtain ⟨enable, hmem, hfound, _, hnamed⟩ := hboth name hname
      exact ⟨enable, hmem, hfound, hnamed⟩
    · intro name hfirst hname
      obtain ⟨_, _, _, hsame, _⟩ := hboth name hname
      exact hsame hfirst
  · rintro ⟨hg, hagree⟩ name hname
    obtain ⟨enable, hmem, rfl, hnamed⟩ := hg name hname
    refine ⟨_, mem_attach_enable.mpr ⟨enable, hmem, claimedBy_singleton f enable⟩, ?_⟩
    by_cases hclaimed : f.enabledBy = some enable.name
    · rw [if_pos hclaimed]
      exact ⟨rfl, Or.inr (congrArg some (hagree _ hclaimed hname))⟩
    · rw [if_neg hclaimed]
      exact ⟨rfl, hnamed⟩

/-- Fields can claim one after the other exactly when each of them may and no two are at odds. -/
theorem foldlM_claim_eq_ok {fields : List Field} {claimed : List Item}
    (hnames : (items.filterMap Item.name?).Nodup) :
    fields.foldlM (claim layout) items = .ok claimed ↔
      ((∀ field ∈ fields, Claimable items field) ∧ fields.Pairwise Agree) ∧
        claimed = items.map (attach fields) := by
  induction fields generalizing items with
  | nil =>
      have hsame : items.map (attach []) = items :=
        Item.map_mapTies_eq_self (fun _ _ => rfl) fun _ _ => rfl
      rw [hsame]
      constructor
      · intro h
        cases h
        exact ⟨⟨fun _ hfield => (List.not_mem_nil hfield).elim, .nil⟩, rfl⟩
      · rintro ⟨_, rfl⟩
        rfl
  | cons field fields ih =>
      have hkept : ((items.map (attach [field])).filterMap Item.name?).Nodup := by
        rw [names_attach]
        exact hnames
      have hrest := @ih (items.map (attach [field])) hkept
      rw [List.foldlM_cons, Fallible.bind_eq_ok]
      simp only [claim_eq_ok hnames]
      constructor
      · rintro ⟨_, ⟨hfield, rfl⟩, h⟩
        obtain ⟨⟨hmay, hagree⟩, rfl⟩ := hrest.mp h
        have hfields : ∀ g ∈ fields, Claimable items g ∧ Agree field g := fun g hg =>
          (claimable_attach hnames hfield).mp (hmay g hg)
        refine ⟨⟨?_, ?_⟩, ?_⟩
        · exact List.forall_mem_cons.mpr ⟨hfield, fun g hg => (hfields g hg).1⟩
        · exact List.pairwise_cons.mpr ⟨fun g hg => (hfields g hg).2, hagree⟩
        · exact attach_attach fun g hg => (hfields g hg).2
      · rintro ⟨⟨hmay, hpairs⟩, rfl⟩
        obtain ⟨hfield, hmay⟩ := List.forall_mem_cons.mp hmay
        obtain ⟨hagree, hpairs⟩ := List.pairwise_cons.mp hpairs
        refine ⟨_, ⟨hfield, rfl⟩, hrest.mpr ⟨⟨?_, hpairs⟩, ?_⟩⟩
        · intro g hg
          exact (claimable_attach hnames hfield).mpr ⟨hmay g hg, hagree g hg⟩
        · exact (attach_attach hagree).symm

/-! ## The free enables gate their fields -/

/-- A field gated by the first of some enables that names it and is free. -/
def gatedAmong (items : List Item) (enables : List Enable) (field : Field) : Field :=
  match enables.find? fun enable =>
      enable.field == some field.name && !isClaimed items enable.name with
  | some enable => field.gatedBy enable.name
  | none => field

/-- What some enables write into an item when the free ones gate the fields that they name. -/
def grant (items : List Item) (enables : List Enable) : Item → Item :=
  Item.mapTies id (gatedAmong items enables)

/-- An enable that is free names something, and not a field that is gated already. -/
def Assignable (items : List Item) (enable : Enable) : Prop :=
  IsFree items enable.name → (∃ name, enable.field = some name) ∧
    ∀ field, Item.field field ∈ items → enable.field = some field.name → field.enabledBy = none

/-- Enables that are free do not name the same field. -/
def Apart (items : List Item) (d e : Enable) : Prop :=
  IsFree items d.name → IsFree items e.name → ∀ field, Item.field field ∈ items →
    d.field = some field.name → e.field ≠ some field.name

theorem gatedAmong_singleton (items : List Item) (enable : Enable) (field : Field) :
    gatedAmong items [enable] field =
      if enable.field = some field.name ∧ isClaimed items enable.name = false then
        field.gatedBy enable.name
      else field := by
  by_cases h : enable.field = some field.name ∧ isClaimed items enable.name = false
  · simp [gatedAmong, h]
  · rw [if_neg h]
    rw [not_and_or, Bool.not_eq_false] at h
    rcases h with h | h
    · simp [gatedAmong, h]
    · simp [gatedAmong, h]

@[simp] theorem name_gatedAmong (items : List Item) (enables : List Enable) (field : Field) :
    (gatedAmong items enables field).name = field.name := by
  unfold gatedAmong
  split
  · rfl
  · rfl

theorem names_grant (enables : List Enable) :
    (items.map (grant items enables)).filterMap Item.name? = items.filterMap Item.name? :=
  Item.filterMap_name?_map (fun _ => rfl) (name_gatedAmong items enables)

theorem mem_grant_field {enables : List Enable} {field : Field} :
    Item.field field ∈ items.map (grant items enables) ↔
      ∃ declared, Item.field declared ∈ items ∧ gatedAmong items enables declared = field :=
  Item.mem_map_field

theorem isClaimed_congr {others : List Item} {enable : String}
    (h : IsFree items enable ↔ IsFree others enable) :
    isClaimed items enable = isClaimed others enable := by
  rw [← isClaimed_eq_false, ← isClaimed_eq_false] at h
  cases hclaimed : isClaimed others enable with
  | false => exact h.mpr hclaimed
  | true =>
      by_contra hne
      rw [Bool.not_eq_true] at hne
      exact absurd (h.mp hne) (by simp [hclaimed])

theorem setGate_eq_grant {enable : Enable} {name : String} (hnamed : enable.field = some name)
    (hfree : isClaimed items enable.name = false) :
    setGate name enable.name items = items.map (grant items [enable]) := by
  apply List.map_congr_left
  intro item _
  cases item with
  | enable _ => rfl
  | reserved _ => rfl
  | field field =>
      simp only [grant, Item.mapTies, gatedAmong_singleton, hnamed]
      by_cases hname : field.name = name
      · simp [hname, hfree]
      · simp [hname, Ne.symm hname]

theorem map_grant_eq_self {enable : Enable}
    (h : ∀ field, Item.field field ∈ items →
      ¬ (enable.field = some field.name ∧ isClaimed items enable.name = false)) :
    items.map (grant items [enable]) = items :=
  Item.map_mapTies_eq_self (fun _ _ => rfl) fun field hfield => by
    rw [gatedAmong_singleton, if_neg (h field hfield)]

/-- A free enable may gate the field that it names exactly when the field is open. -/
theorem assignable_iff_open (hnames : (items.filterMap Item.name?).Nodup) {enable : Enable}
    {field : Field} (hfree : IsFree items enable.name) (hmem : Item.field field ∈ items)
    (hnamed : enable.field = some field.name) :
    Assignable items enable ↔ field.enabledBy = none := by
  constructor
  · intro h
    exact (h hfree).2 field hmem hnamed
  · intro hopen _
    refine ⟨⟨field.name, hnamed⟩, ?_⟩
    intro other hother hname
    have hsame : field.name = other.name := Option.some.inj (hnamed.symm.trans hname)
    obtain rfl := field_eq_of_name hnames hmem hother hsame
    exact hopen

/-- One enable gates its field exactly when it may, and writes its own name. -/
theorem assign_eq_ok (hnames : (items.filterMap Item.name?).Nodup) {enable : Enable}
    {next : List Item} :
    assign layout items enable = .ok next ↔
      Assignable items enable ∧ next = items.map (grant items [enable]) := by
  cases hclaimed : isClaimed items enable.name with
  | true =>
      have hmay : Assignable items enable := by
        intro hfree
        rw [isClaimed_eq_false.mpr hfree] at hclaimed
        cases hclaimed
      have hsame : items.map (grant items [enable]) = items :=
        map_grant_eq_self fun field _ h => by simp [hclaimed] at h
      simp only [assign, hclaimed, if_true, hsame, hmay, true_and, Except.ok.injEq]
      exact eq_comm
  | false =>
      have hfree : IsFree items enable.name := isClaimed_eq_false.mp hclaimed
      simp only [assign, hclaimed, Bool.false_eq_true, if_false]
      cases hnamed : enable.field with
      | none =>
          have hrefused : ¬ Assignable items enable := by
            intro hmay
            obtain ⟨⟨name, hname⟩, _⟩ := hmay hfree
            cases hnamed.symm.trans hname
          simp [hrefused]
      | some name =>
          cases hfield : field? items name with
          | none =>
              have hnone : ∀ field, Item.field field ∈ items → enable.field ≠ some field.name := by
                intro field hmem hname
                cases hnamed.symm.trans hname
                rw [(field?_eq_some hnames).mpr ⟨hmem, rfl⟩] at hfield
                cases hfield
              have hmay : Assignable items enable := fun _ =>
                ⟨⟨name, hnamed⟩, fun field hmem hname => absurd hname (hnone field hmem)⟩
              have hsame : items.map (grant items [enable]) = items :=
                map_grant_eq_self fun field hmem h => hnone field hmem h.1
              simp only [hfield, hsame, hmay, true_and, Except.ok.injEq]
              exact eq_comm
          | some field =>
              obtain ⟨hmem, rfl⟩ := (field?_eq_some hnames).mp hfield
              have hmay := assignable_iff_open hnames hfree hmem hnamed
              cases hgate : field.enabledBy with
              | none =>
                  simp only [hfield, hgate, setGate_eq_grant hnamed hclaimed, hmay, true_and,
                    Except.ok.injEq]
                  exact eq_comm
              | some other => simp [hfield, hgate, hmay]

section Grant

variable {d e : Enable} (hd : Assignable items d) (hne : d.name ≠ e.name)

include hd hne

theorem isFree_grant :
    IsFree (items.map (grant items [d])) e.name ↔ IsFree items e.name := by
  constructor
  · intro h field hfield hclaim
    have hkept : gatedAmong items [d] field = field := by
      rw [gatedAmong_singleton, if_neg]
      rintro ⟨hnamed, hfree⟩
      rw [(hd (isClaimed_eq_false.mp hfree)).2 field hfield hnamed] at hclaim
      cases hclaim
    exact h field (mem_grant_field.mpr ⟨field, hfield, hkept⟩) hclaim
  · intro h field hfield hclaim
    obtain ⟨declared, hdeclared, hgrant⟩ := mem_grant_field.mp hfield
    rw [gatedAmong_singleton] at hgrant
    split at hgrant
    · subst hgrant
      exact hne (Option.some.inj hclaim)
    · subst hgrant
      exact h declared hdeclared hclaim

/-- After one enable has gated its field, another may gate its own exactly when it might before and
names another field. -/
theorem assignable_grant :
    Assignable (items.map (grant items [d])) e ↔ Assignable items e ∧ Apart items d e := by
  constructor
  · intro h
    constructor
    · intro hfree
      obtain ⟨hnamed, hopen⟩ := h ((isFree_grant hd hne).mpr hfree)
      refine ⟨hnamed, ?_⟩
      intro field hfield hname
      by_cases hgranted : d.field = some field.name ∧ isClaimed items d.name = false
      · exact (hd (isClaimed_eq_false.mp hgranted.2)).2 field hfield hgranted.1
      · have hkept : gatedAmong items [d] field = field := by
          rw [gatedAmong_singleton, if_neg hgranted]
        exact hopen field (mem_grant_field.mpr ⟨field, hfield, hkept⟩) hname
    · intro hdfree hefree field hfield hdname hename
      have hgranted : gatedAmong items [d] field = field.gatedBy d.name := by
        rw [gatedAmong_singleton, if_pos ⟨hdname, isClaimed_eq_false.mpr hdfree⟩]
      obtain ⟨_, hopen⟩ := h ((isFree_grant hd hne).mpr hefree)
      cases hopen _ (mem_grant_field.mpr ⟨field, hfield, hgranted⟩) hename
  · rintro ⟨he, hapart⟩ hfree
    have hefree : IsFree items e.name := (isFree_grant hd hne).mp hfree
    obtain ⟨hnamed, hopen⟩ := he hefree
    refine ⟨hnamed, ?_⟩
    intro field hfield hname
    obtain ⟨declared, hdeclared, hgrant⟩ := mem_grant_field.mp hfield
    rw [gatedAmong_singleton] at hgrant
    split at hgrant
    · next hgranted =>
        subst hgrant
        exact absurd hname
          (hapart (isClaimed_eq_false.mp hgranted.2) hefree declared hdeclared hgranted.1)
    · subst hgrant
      exact hopen declared hdeclared hname

end Grant

theorem apart_grant {d a b : Enable} (hd : Assignable items d) (ha : d.name ≠ a.name)
    (hb : d.name ≠ b.name) : Apart (items.map (grant items [d])) a b ↔ Apart items a b := by
  have hfields : ∀ name, (∃ field, Item.field field ∈ items.map (grant items [d]) ∧
      field.name = name) ↔ ∃ field, Item.field field ∈ items ∧ field.name = name := by
    intro name
    constructor
    · rintro ⟨field, hfield, rfl⟩
      obtain ⟨declared, hdeclared, hgrant⟩ := mem_grant_field.mp hfield
      refine ⟨declared, hdeclared, ?_⟩
      rw [← hgrant, name_gatedAmong]
    · rintro ⟨field, hfield, rfl⟩
      exact ⟨_, mem_grant_field.mpr ⟨field, hfield, rfl⟩, name_gatedAmong items [d] field⟩
  have hapart : ∀ list : List Item, Apart list a b ↔ (IsFree list a.name → IsFree list b.name →
      ∀ name, (∃ field, Item.field field ∈ list ∧ field.name = name) →
        a.field = some name → b.field ≠ some name) := by
    intro list
    simp only [Apart, forall_exists_index, and_imp]
    constructor
    · rintro h hfirst hsecond name field hfield rfl
      exact h hfirst hsecond field hfield
    · intro h hfirst hsecond field hfield
      exact h hfirst hsecond field.name field hfield rfl
  rw [hapart, hapart, isFree_grant hd ha, isFree_grant hd hb]
  simp only [hfields]

theorem grant_grant {d : Enable} {enables : List Enable} (hd : Assignable items d)
    (hne : ∀ e ∈ enables, d.name ≠ e.name) (hapart : ∀ e ∈ enables, Apart items d e) :
    (items.map (grant items [d])).map (grant (items.map (grant items [d])) enables) =
      items.map (grant items (d :: enables)) := by
  have hclaimed : ∀ e ∈ enables,
      isClaimed (items.map (grant items [d])) e.name = isClaimed items e.name := fun e he =>
    isClaimed_congr (isFree_grant hd (hne e he))
  rw [List.map_map]
  apply List.map_congr_left
  intro item hitem
  cases item with
  | enable _ => rfl
  | reserved _ => rfl
  | field field =>
      apply congrArg Item.field
      rw [gatedAmong_singleton]
      by_cases hgranted : d.field = some field.name ∧ isClaimed items d.name = false
      · -- No other free enable names this field, so nothing is written over it.
        have hnone : enables.find? (fun e => e.field == some field.name &&
            !isClaimed (items.map (grant items [d])) e.name) = none := by
          rw [List.find?_eq_none]
          intro e he hfound
          rw [hclaimed e he, Bool.and_eq_true, beq_iff_eq, Bool.not_eq_true'] at hfound
          exact hapart e he (isClaimed_eq_false.mp hgranted.2) (isClaimed_eq_false.mp hfound.2)
            field hitem hgranted.1 hfound.1
        have hname : (field.gatedBy d.name).name = field.name := rfl
        rw [if_pos hgranted]
        simp only [gatedAmong, hname, hnone, List.find?_cons, hgranted, beq_self_eq_true,
          Bool.not_false, Bool.and_self]
      · have hskip : (d.field == some field.name && !isClaimed items d.name) = false := by
          rw [Bool.eq_false_iff]
          intro hfound
          rw [Bool.and_eq_true, beq_iff_eq, Bool.not_eq_true'] at hfound
          exact hgranted hfound
        have hsame : enables.find? (fun e => e.field == some field.name &&
            !isClaimed (items.map (grant items [d])) e.name) =
              enables.find? fun e => e.field == some field.name && !isClaimed items e.name := by
          apply List.find?_congr
          intro e he
          rw [hclaimed e he]
        rw [if_neg hgranted]
        simp only [gatedAmong, hsame, List.find?_cons, hskip]

/-- Enables can gate their fields one after the other exactly when each of them may and no two are
at odds. -/
theorem foldlM_assign_eq_ok {enables : List Enable} {resolved : List Item}
    (hnames : (items.filterMap Item.name?).Nodup) (henables : (enables.map Enable.name).Nodup) :
    enables.foldlM (assign layout) items = .ok resolved ↔
      ((∀ enable ∈ enables, Assignable items enable) ∧ enables.Pairwise (Apart items)) ∧
        resolved = items.map (grant items enables) := by
  induction enables generalizing items with
  | nil =>
      have hsame : items.map (grant items []) = items :=
        Item.map_mapTies_eq_self (fun _ _ => rfl) fun _ _ => rfl
      rw [hsame]
      constructor
      · intro h
        cases h
        exact ⟨⟨fun _ hmem => (List.not_mem_nil hmem).elim, .nil⟩, rfl⟩
      · rintro ⟨_, rfl⟩
        rfl
  | cons d enables ih =>
      rw [List.map_cons, List.nodup_cons] at henables
      obtain ⟨hfresh, hothers⟩ := henables
      have hne : ∀ e ∈ enables, d.name ≠ e.name := by
        intro e he heq
        exact hfresh (heq ▸ List.mem_map_of_mem he)
      have hkept : ((items.map (grant items [d])).filterMap Item.name?).Nodup := by
        rw [names_grant]
        exact hnames
      have hrest := @ih (items.map (grant items [d])) hkept hothers
      have hpairs : Assignable items d →
          (enables.Pairwise (Apart (items.map (grant items [d]))) ↔
            enables.Pairwise (Apart items)) := fun hd =>
        List.Pairwise.iff_of_mem fun ha hb => apart_grant hd (hne _ ha) (hne _ hb)
      rw [List.foldlM_cons, Fallible.bind_eq_ok]
      simp only [assign_eq_ok hnames]
      constructor
      · rintro ⟨_, ⟨hd, rfl⟩, h⟩
        obtain ⟨⟨hmay, hapart⟩, rfl⟩ := hrest.mp h
        have henables : ∀ e ∈ enables, Assignable items e ∧ Apart items d e := fun e he =>
          (assignable_grant hd (hne e he)).mp (hmay e he)
        refine ⟨⟨?_, ?_⟩, ?_⟩
        · exact List.forall_mem_cons.mpr ⟨hd, fun e he => (henables e he).1⟩
        · exact List.pairwise_cons.mpr ⟨fun e he => (henables e he).2, (hpairs hd).mp hapart⟩
        · exact grant_grant hd hne fun e he => (henables e he).2
      · rintro ⟨⟨hmay, hapart⟩, rfl⟩
        obtain ⟨hd, hmay⟩ := List.forall_mem_cons.mp hmay
        obtain ⟨hfirst, hapart⟩ := List.pairwise_cons.mp hapart
        refine ⟨_, ⟨hd, rfl⟩, hrest.mpr ⟨⟨?_, (hpairs hd).mpr hapart⟩, ?_⟩⟩
        · intro e he
          exact (assignable_grant hd (hne e he)).mpr ⟨hmay e he, hfirst e he⟩
        · exact (grant_grant hd hne hfirst).symm

end Linkage

end RadioPacket
