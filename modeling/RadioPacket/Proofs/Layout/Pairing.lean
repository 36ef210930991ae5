import Mathlib.Data.List.Nodup
import Mathlib.Data.List.Pairwise
import RadioPacket.Proofs.Layout.Resolving

/-!
# Pairs of fields and enables

A field and an enable of one structure belong together as soon as one of them names the other.
Linking succeeds exactly when this relation is a matching that leaves nothing dangling, and it
then makes both sides of each pair name each other.  Stated in this form the conditions do not
mention which side has named the other one, so they are the same before and after linking.
-/

namespace RadioPacket

namespace Linkage

variable {layout : String} {items : List Item}

/-- The fields can claim the enables that they name. -/
structure ClaimsFit (items : List Item) : Prop where
  /-- A field that names an enable names one of the same structure. -/
  known : ∀ field name, Item.field field ∈ items → field.enabledBy = some name →
    ∃ enable, Item.enable enable ∈ items ∧ enable.name = name
  /-- No two fields name the same enable. -/
  single : ∀ f g name, Item.field f ∈ items → Item.field g ∈ items →
    f.enabledBy = some name → g.enabledBy = some name → f = g
  /-- An enable that a field names does not name anything else. -/
  agrees : ∀ field enable, Item.field field ∈ items → Item.enable enable ∈ items →
    field.enabledBy = some enable.name → enable.field = none ∨ enable.field = some field.name

/-- The enables that no field claims can gate the fields that they name. -/
structure GatesFit (items : List Item) : Prop where
  /-- An enable that no field names has a name to gate. -/
  aimed : ∀ enable, Item.enable enable ∈ items → IsFree items enable.name →
    ∃ name, enable.field = some name
  /-- If that name is a field of the structure, then the field has not named another enable. -/
  ungated : ∀ enable field, Item.enable enable ∈ items → IsFree items enable.name →
    Item.field field ∈ items → enable.field = some field.name → field.enabledBy = none
  /-- No two such enables name the same field of the structure. -/
  sole : ∀ d e field, Item.enable d ∈ items → Item.enable e ∈ items → IsFree items d.name →
    IsFree items e.name → Item.field field ∈ items → d.field = some field.name →
    e.field = some field.name → d = e

/-- The conditions under which linking succeeds, in the words of the declaration. -/
structure Linkable (items : List Item) : Prop extends ClaimsFit items, GatesFit items

/-- An enable and a field of a structure, one of which names the other. -/
def Pairs (items : List Item) (enable : Enable) (field : Field) : Prop :=
  Item.enable enable ∈ items ∧ Item.field field ∈ items ∧
    (field.enabledBy = some enable.name ∨ enable.field = some field.name)

/-- The pairs are a matching, and every name that an item asks for is accounted for. -/
structure Coherent (items : List Item) : Prop where
  field_eq : ∀ {enable f g}, Pairs items enable f → Pairs items enable g → f = g
  enable_eq : ∀ {d e field}, Pairs items d field → Pairs items e field → d = e
  known : ∀ {field name}, Item.field field ∈ items → field.enabledBy = some name →
    ∃ enable, Item.enable enable ∈ items ∧ enable.name = name
  agrees : ∀ {enable field}, Pairs items enable field → field.enabledBy = some enable.name →
    enable.field = none ∨ enable.field = some field.name
  claimed : ∀ {enable}, Item.enable enable ∈ items → enable.field = none →
    ∃ field, Item.field field ∈ items ∧ field.enabledBy = some enable.name

theorem not_isFree {enable : String} (h : ¬ IsFree items enable) :
    ∃ field, Item.field field ∈ items ∧ field.enabledBy = some enable := by
  simp only [IsFree, not_forall, not_not] at h
  obtain ⟨field, hfield, hclaim⟩ := h
  exact ⟨field, hfield, hclaim⟩

/-- Under the conditions, an enable of a pair that the field has not named is free. -/
theorem Linkable.isFree_of_pairs (hnames : (items.filterMap Item.name?).Nodup)
    (h : Linkable items) {enable : Enable} {field : Field} (hpair : Pairs items enable field)
    (hunclaimed : field.enabledBy ≠ some enable.name) : IsFree items enable.name := by
  obtain ⟨henable, hfield, hnamed⟩ := hpair
  intro other hother hclaim
  have hfieldname : enable.field = some field.name := hnamed.resolve_left hunclaimed
  rcases h.agrees other enable hother henable hclaim with hnone | hsame
  · cases hfieldname.symm.trans hnone
  · have heq : field.name = other.name := Option.some.inj (hfieldname.symm.trans hsame)
    obtain rfl := field_eq_of_name hnames hfield hother heq
    exact hunclaimed hclaim

/-- A pair that rests on the name in its field is the only pair of its enable. -/
theorem Linkable.field_eq_of_claim (hnames : (items.filterMap Item.name?).Nodup)
    (h : Linkable items) {enable : Enable} {f g : Field} (hf : Pairs items enable f)
    (hg : Pairs items enable g) (hclaim : f.enabledBy = some enable.name) : f = g := by
  by_cases hother : g.enabledBy = some enable.name
  · exact h.single f g _ hf.2.1 hg.2.1 hclaim hother
  · exact absurd hclaim (h.isFree_of_pairs hnames hg hother f hf.2.1)

/-- The conditions on either side make the pairs a matching. -/
theorem Linkable.coherent (hnames : (items.filterMap Item.name?).Nodup) (h : Linkable items) :
    Coherent items := by
  constructor
  · intro enable f g hf hg
    by_cases hfclaim : f.enabledBy = some enable.name
    · exact h.field_eq_of_claim hnames hf hg hfclaim
    by_cases hgclaim : g.enabledBy = some enable.name
    · exact (h.field_eq_of_claim hnames hg hf hgclaim).symm
    have hfname := hf.2.2.resolve_left hfclaim
    have hgname := hg.2.2.resolve_left hgclaim
    exact field_eq_of_name hnames hf.2.1 hg.2.1 (Option.some.inj (hfname.symm.trans hgname))
  · intro d e field hd he
    by_cases hdclaim : field.enabledBy = some d.name
    · by_cases heclaim : field.enabledBy = some e.name
      · exact enable_eq_of_name hnames hd.1 he.1 (Option.some.inj (hdclaim.symm.trans heclaim))
      · have hfree := h.isFree_of_pairs hnames he heclaim
        have hopen := h.ungated e field he.1 hfree he.2.1 (he.2.2.resolve_left heclaim)
        cases hdclaim.symm.trans hopen
    · have hdfree := h.isFree_of_pairs hnames hd hdclaim
      have hdname := hd.2.2.resolve_left hdclaim
      have hopen := h.ungated d field hd.1 hdfree hd.2.1 hdname
      have heclaim : field.enabledBy ≠ some e.name := by
        rw [hopen]
        nofun
      exact h.sole d e field hd.1 he.1 hdfree (h.isFree_of_pairs hnames he heclaim) hd.2.1
        hdname (he.2.2.resolve_left heclaim)
  · exact h.known _ _
  · intro enable field hpair hclaim
    exact h.agrees field enable hpair.2.1 hpair.1 hclaim
  · intro enable henable hnone
    apply not_isFree
    intro hfree
    obtain ⟨name, hname⟩ := h.aimed enable henable hfree
    cases hname.symm.trans hnone

/-- When the pairs are a matching, the conditions on either side hold. -/
theorem Coherent.linkable (h : Coherent items) : Linkable items := by
  refine ⟨⟨?_, ?_, ?_⟩, ⟨?_, ?_, ?_⟩⟩
  · intro field name hfield hname
    exact h.known hfield hname
  · intro f g name hf hg hfname hgname
    obtain ⟨enable, henable, rfl⟩ := h.known hf hfname
    exact h.field_eq ⟨henable, hf, .inl hfname⟩ ⟨henable, hg, .inl hgname⟩
  · intro field enable hfield henable hclaim
    exact h.agrees ⟨henable, hfield, .inl hclaim⟩ hclaim
  · intro enable henable hfree
    rw [← Option.ne_none_iff_exists']
    intro hnone
    obtain ⟨field, hfield, hclaim⟩ := h.claimed henable hnone
    exact hfree field hfield hclaim
  · intro enable field henable hfree hfield hname
    by_contra hgated
    obtain ⟨name, hclaim⟩ := Option.ne_none_iff_exists'.mp hgated
    obtain ⟨other, hother, rfl⟩ := h.known hfield hclaim
    obtain rfl := h.enable_eq ⟨henable, hfield, .inr hname⟩ ⟨hother, hfield, .inl hclaim⟩
    exact hfree field hfield hclaim
  · intro d e field hd he _ _ hfield hdname hename
    exact h.enable_eq ⟨hd, hfield, .inr hdname⟩ ⟨he, hfield, .inr hename⟩

/-! ## What resolving writes -/

/-- What resolving makes of an enable: it comes to name the field that claims it. -/
def tieEnable (items : List Item) : Enable → Enable := claimedBy (items.filterMap Item.field?)

/-- What resolving makes of a field: it comes to be gated by the free enable that names it. -/
def tieField (items : List Item) : Field → Field :=
  gatedAmong items (items.filterMap Item.enable?)

def tie (items : List Item) : Item → Item := Item.mapTies (tieEnable items) (tieField items)

@[simp] theorem untied_tie (items : List Item) (item : Item) :
    (tie items item).untied = item.untied := by
  cases item with
  | reserved _ => rfl
  | enable enable =>
      simp only [tie, Item.mapTies, tieEnable, claimedBy]
      split
      · rfl
      · rfl
  | field field =>
      simp only [tie, Item.mapTies, tieField, gatedAmong]
      split
      · rfl
      · rfl

theorem map_untied_tie (items : List Item) :
    (items.map (tie items)).map Item.untied = items.map Item.untied := by
  simp [Function.comp_def]

theorem of_find?_enabledBy {enable : String} {field : Field}
    (h : (items.filterMap Item.field?).find? (fun field => field.enabledBy == some enable) =
      some field) : Item.field field ∈ items ∧ field.enabledBy = some enable :=
  ⟨Item.mem_filterMap_field?.mp (List.mem_of_find?_eq_some h), by simpa using List.find?_some h⟩

theorem of_find?_free {name : String} {enable : Enable}
    (h : (items.filterMap Item.enable?).find? (fun enable =>
      enable.field == some name && !isClaimed items enable.name) = some enable) :
    Item.enable enable ∈ items ∧ enable.field = some name ∧ IsFree items enable.name := by
  have hboth := List.find?_some h
  rw [Bool.and_eq_true, beq_iff_eq, Bool.not_eq_true', isClaimed_eq_false] at hboth
  exact ⟨Item.mem_filterMap_enable?.mp (List.mem_of_find?_eq_some h), hboth⟩

section Tie

variable (h : Coherent items) {enable : Enable} {field : Field}

include h

theorem Coherent.tieEnable_eq (hpair : Pairs items enable field) :
    tieEnable items enable = { enable with field := some field.name } := by
  unfold tieEnable claimedBy
  split
  · next other hother =>
      obtain ⟨hmem, hclaim⟩ := of_find?_enabledBy hother
      rw [h.field_eq hpair ⟨hpair.1, hmem, .inl hclaim⟩]
  · next hnone =>
      -- No field claims the enable, so the enable has named the field itself.
      rw [List.find?_eq_none] at hnone
      have hunclaimed : field.enabledBy ≠ some enable.name := by
        have hfield := hnone field (Item.mem_filterMap_field?.mpr hpair.2.1)
        simpa using hfield
      rw [← hpair.2.2.resolve_left hunclaimed]

theorem Coherent.tieField_eq (hpair : Pairs items enable field) (hopen : field.enabledBy = none) :
    tieField items field = field.gatedBy enable.name := by
  have hnamed : enable.field = some field.name := by
    apply hpair.2.2.resolve_left
    rw [hopen]
    nofun
  have hfree : IsFree items enable.name := by
    intro other hother hclaim
    obtain rfl := h.field_eq hpair ⟨hpair.1, hother, .inl hclaim⟩
    cases hopen.symm.trans hclaim
  unfold tieField gatedAmong
  split
  · next other hother =>
      obtain ⟨hmem, hname, _⟩ := of_find?_free hother
      rw [h.enable_eq hpair ⟨hmem, hpair.2.1, .inr hname⟩]
  · next hnone =>
      rw [List.find?_eq_none] at hnone
      have henable := hnone enable (Item.mem_filterMap_enable?.mpr hpair.1)
      simp [hnamed, isClaimed_eq_false.mpr hfree] at henable

theorem Coherent.tieField_gated {name : String} (hfield : Item.field field ∈ items)
    (hgated : field.enabledBy = some name) : tieField items field = field := by
  obtain ⟨own, hown, rfl⟩ := h.known hfield hgated
  unfold tieField gatedAmong
  split
  · next other hother =>
      obtain ⟨hmem, hname, hfree⟩ := of_find?_free hother
      have heq := h.enable_eq ⟨hown, hfield, .inl hgated⟩ ⟨hmem, hfield, .inr hname⟩
      exact absurd (heq ▸ hgated) (hfree field hfield)
  · rfl

end Tie

theorem tieEnable_eq_self {enable : Enable} (henable : Item.enable enable ∈ items)
    (hnone : ∀ field, ¬ Pairs items enable field) : tieEnable items enable = enable := by
  unfold tieEnable claimedBy
  split
  · next field hfield =>
      obtain ⟨hmem, hclaim⟩ := of_find?_enabledBy hfield
      exact absurd ⟨henable, hmem, .inl hclaim⟩ (hnone field)
  · rfl

theorem tieField_eq_self {field : Field} (hfield : Item.field field ∈ items)
    (hnone : ∀ enable, ¬ Pairs items enable field) : tieField items field = field := by
  unfold tieField gatedAmong
  split
  · next enable henable =>
      obtain ⟨hmem, hname, _⟩ := of_find?_free henable
      exact absurd ⟨hmem, hfield, .inr hname⟩ (hnone enable)
  · rfl

/-! ## Both runs together -/

section Runs

theorem claimedBy_eq_self {enable : Enable} (hfree : IsFree items enable.name) :
    claimedBy (items.filterMap Item.field?) enable = enable := by
  unfold claimedBy
  split
  · next field hfield =>
      obtain ⟨hmem, hclaim⟩ := of_find?_enabledBy hfield
      exact absurd hclaim (hfree field hmem)
  · rfl

theorem filterMap_enable?_attach (fields : List Field) :
    (items.map (attach fields)).filterMap Item.enable? =
      (items.filterMap Item.enable?).map (claimedBy fields) := by
  rw [List.filterMap_map, List.map_filterMap]
  congr 1
  funext item
  cases item with
  | field _ => rfl
  | enable _ => rfl
  | reserved _ => rfl

theorem nodup_map_filterMap {α : Type} {part? : Item → Option α} {name : α → String}
    (hnames : (items.filterMap Item.name?).Nodup)
    (hpart : ∀ item part, part? item = some part → item.name? = some (name part)) :
    ((items.filterMap part?).map name).Nodup := by
  rw [List.Nodup, List.pairwise_filterMap] at hnames
  rw [List.Nodup, List.pairwise_map, List.pairwise_filterMap]
  apply hnames.imp
  intro a b h c hc d hd
  exact h _ (hpart a c hc) _ (hpart b d hd)

theorem nodup_fields (hnames : (items.filterMap Item.name?).Nodup) :
    ((items.filterMap Item.field?).map Field.name).Nodup := by
  apply nodup_map_filterMap hnames
  intro item field hfield
  cases item with
  | field _ =>
      cases hfield
      rfl
  | enable _ => cases hfield
  | reserved _ => cases hfield

theorem nodup_enables (hnames : (items.filterMap Item.name?).Nodup) :
    ((items.filterMap Item.enable?).map Enable.name).Nodup := by
  apply nodup_map_filterMap hnames
  intro item enable henable
  cases item with
  | field _ => cases henable
  | enable _ =>
      cases henable
      rfl
  | reserved _ => cases henable

/-- The second run sees the enables as the first one has left them, and takes the same decisions
as on the declared ones. -/
theorem gatedAmong_attach (field : Field) :
    gatedAmong (items.map (attach (items.filterMap Item.field?)))
        ((items.map (attach (items.filterMap Item.field?))).filterMap Item.enable?) field =
      tieField items field := by
  have hsame : ∀ enable ∈ items.filterMap Item.enable?,
      ((claimedBy (items.filterMap Item.field?) enable).field == some field.name &&
        !isClaimed (items.map (attach (items.filterMap Item.field?))) enable.name) =
          (enable.field == some field.name && !isClaimed items enable.name) := by
    intro enable _
    rw [isClaimed_congr isFree_attach]
    cases hclaimed : isClaimed items enable.name with
    | true => simp
    | false => rw [claimedBy_eq_self (isClaimed_eq_false.mp hclaimed)]
  rw [filterMap_enable?_attach, tieField, gatedAmong, gatedAmong, List.find?_map]
  simp only [Function.comp_def, name_claimedBy]
  rw [List.find?_congr hsame]
  cases (items.filterMap Item.enable?).find? fun enable =>
      enable.field == some field.name && !isClaimed items enable.name with
  | none => rfl
  | some enable => simp

/-- The items as the first run leaves them. -/
def attached (items : List Item) : List Item := items.map (attach (items.filterMap Item.field?))

theorem mem_attached {enable : Enable} (hfree : IsFree items enable.name) :
    Item.enable enable ∈ attached items ↔ Item.enable enable ∈ items := by
  rw [attached, mem_attach_enable]
  constructor
  · rintro ⟨declared, hmem, hclaimed⟩
    have hname : declared.name = enable.name := by rw [← hclaimed, name_claimedBy]
    rw [claimedBy_eq_self (hname ▸ hfree)] at hclaimed
    exact hclaimed ▸ hmem
  · intro hmem
    exact ⟨enable, hmem, claimedBy_eq_self hfree⟩

/-- The fields can claim their enables exactly when the conditions on the side of the fields
hold. -/
theorem claims_iff (hnames : (items.filterMap Item.name?).Nodup) :
    ((∀ field ∈ items.filterMap Item.field?, Claimable items field) ∧
        (items.filterMap Item.field?).Pairwise Agree) ↔
      ClaimsFit items := by
  have hsymm : Std.Symm Agree := ⟨fun f g h name hg hf => (h name hf hg).symm⟩
  constructor
  · rintro ⟨hmay, hagree⟩
    simp only [Item.mem_filterMap_field?] at hmay
    constructor
    · intro field name hfield hname
      obtain ⟨enable, hmem, hfound, _⟩ := hmay field hfield name hname
      exact ⟨enable, hmem, hfound⟩
    · intro f g name hf hg hfname hgname
      by_contra hne
      have hsame : f.name = g.name :=
        hagree.forall (Item.mem_filterMap_field?.mpr hf) (Item.mem_filterMap_field?.mpr hg) hne
          name hfname hgname
      exact hne (field_eq_of_name hnames hf hg hsame)
    · intro field enable hfield henable hclaim
      obtain ⟨other, hother, hname, hnamed⟩ := hmay field hfield _ hclaim
      obtain rfl := enable_eq_of_name hnames hother henable hname
      exact hnamed
  · intro h
    constructor
    · intro field hfield name hname
      rw [Item.mem_filterMap_field?] at hfield
      obtain ⟨enable, hmem, rfl⟩ := h.known field name hfield hname
      exact ⟨enable, hmem, rfl, h.agrees field enable hfield hmem hname⟩
    · apply (List.Nodup.of_map _ (nodup_fields hnames)).pairwise_of_forall_ne
      intro f hf g hg _ name hfname hgname
      rw [h.single f g name (Item.mem_filterMap_field?.mp hf) (Item.mem_filterMap_field?.mp hg)
        hfname hgname]

/-- The enables can then gate their fields exactly when the conditions on the side of the enables
hold. -/
theorem assigns_iff (hnames : (items.filterMap Item.name?).Nodup) :
    ((∀ enable ∈ (attached items).filterMap Item.enable?, Assignable (attached items) enable) ∧
        ((attached items).filterMap Item.enable?).Pairwise (Apart (attached items))) ↔
      GatesFit items := by
  have hsymm : Std.Symm (Apart (attached items)) :=
    ⟨fun d e h he hd field hfield hename hdname => h hd he field hfield hdname hename⟩
  have hattached : ((attached items).filterMap Item.name?).Nodup := by
    rw [attached, names_attach]
    exact hnames
  have hfree : ∀ {name : String}, IsFree (attached items) name ↔ IsFree items name := isFree_attach
  have hfields : ∀ {field : Field}, Item.field field ∈ attached items ↔ Item.field field ∈ items :=
    mem_attach_field
  constructor
  · rintro ⟨hmay, hapart⟩
    simp only [Item.mem_filterMap_enable?] at hmay
    have hassignable : ∀ enable, Item.enable enable ∈ items → IsFree items enable.name →
        (∃ name, enable.field = some name) ∧ ∀ field, Item.field field ∈ attached items →
          enable.field = some field.name → field.enabledBy = none := by
      intro enable henable hunclaimed
      exact hmay enable ((mem_attached hunclaimed).mpr henable) (hfree.mpr hunclaimed)
    constructor
    · intro enable henable hunclaimed
      exact (hassignable enable henable hunclaimed).1
    · intro enable field henable hunclaimed hfield
      exact (hassignable enable henable hunclaimed).2 field (hfields.mpr hfield)
    · intro d e field hd he hdfree hefree hfield hdname hename
      by_contra hne
      exact hapart.forall (Item.mem_filterMap_enable?.mpr ((mem_attached hdfree).mpr hd))
        (Item.mem_filterMap_enable?.mpr ((mem_attached hefree).mpr he)) hne (hfree.mpr hdfree)
        (hfree.mpr hefree) field (hfields.mpr hfield) hdname hename
  · intro h
    constructor
    · intro enable henable hunclaimed
      rw [hfree] at hunclaimed
      rw [Item.mem_filterMap_enable?, mem_attached hunclaimed] at henable
      refine ⟨h.aimed enable henable hunclaimed, ?_⟩
      intro field hfield
      exact h.ungated enable field henable hunclaimed (hfields.mp hfield)
    · apply (List.Nodup.of_map _ (nodup_enables hattached)).pairwise_of_forall_ne
      intro d hd e he hne hdfree hefree field hfield hdname hename
      rw [hfree] at hdfree hefree
      have hdmem := (mem_attached hdfree).mp (Item.mem_filterMap_enable?.mp hd)
      have hemem := (mem_attached hefree).mp (Item.mem_filterMap_enable?.mp he)
      exact hne (h.sole d e field hdmem hemem hdfree hefree (hfields.mp hfield) hdname hename)

/-- Resolving succeeds exactly on linkable items, and ties each of them. -/
theorem resolve_eq_ok (hnames : (items.filterMap Item.name?).Nodup) {resolved : List Item} :
    resolve layout items = .ok resolved ↔
      Linkable items ∧ resolved = items.map (tie items) := by
  have hattached : ((attached items).filterMap Item.name?).Nodup := by
    rw [attached, names_attach]
    exact hnames
  have htied : (attached items).map
      (grant (attached items) ((attached items).filterMap Item.enable?)) =
        items.map (tie items) := by
    rw [attached, List.map_map]
    apply List.map_congr_left
    intro item _
    cases item with
    | field field => exact congrArg Item.field (gatedAmong_attach field)
    | enable _ => rfl
    | reserved _ => rfl
  rw [resolve, Fallible.bind_eq_ok]
  simp only [foldlM_claim_eq_ok hnames, claims_iff hnames]
  constructor
  · rintro ⟨_, ⟨hclaims, rfl⟩, h⟩
    obtain ⟨hgates, rfl⟩ := (foldlM_assign_eq_ok hattached (nodup_enables hattached)).mp h
    exact ⟨⟨hclaims, (assigns_iff hnames).mp hgates⟩, htied⟩
  · rintro ⟨⟨hclaims, hgates⟩, rfl⟩
    refine ⟨_, ⟨hclaims, rfl⟩, ?_⟩
    exact (foldlM_assign_eq_ok hattached (nodup_enables hattached)).mpr
      ⟨(assigns_iff hnames).mpr hgates, htied.symm⟩

end Runs

end Linkage

end RadioPacket
