import RadioPacket.Layout.Equality
import RadioPacket.Proofs.Layout.Carrying
import RadioPacket.Proofs.Layout.Matching

/-!
# Building in stages

A structure that is frozen and then extended is the structure that is built in one go.  Freezing
writes names into items, and an extension starts from the items that have them written in.  What
freezing has written is what linking the whole would write anyway: it makes no new pairs, breaks
none, and puts nothing in the way of the pairs that the extension adds.
-/

namespace RadioPacket

namespace Linkage

variable {items base : List Item}

/-- What freezing the base has made of an enable among other items. -/
def settleEnable (base : List Item) (enable : Enable) : Enable :=
  if Item.enable enable ∈ base then tieEnable base enable else enable

/-- What freezing the base has made of a field among other items. -/
def settleField (base : List Item) (field : Field) : Field :=
  if Item.field field ∈ base then tieField base field else field

/-- What freezing the base has made of an item among others. -/
def settle (base : List Item) : Item → Item := Item.mapTies (settleEnable base) (settleField base)

theorem settle_of_mem {item : Item} (h : item ∈ base) : settle base item = tie base item := by
  cases item with
  | enable enable => exact congrArg Item.enable (if_pos h)
  | field field => exact congrArg Item.field (if_pos h)
  | reserved _ => rfl

theorem settle_of_not_mem {item : Item} (h : item.isReserved = false → item ∉ base) :
    settle base item = item := by
  cases item with
  | enable enable => exact congrArg Item.enable (if_neg (h rfl))
  | field field => exact congrArg Item.field (if_neg (h rfl))
  | reserved _ => rfl

theorem map_settle (base : List Item) : base.map (settle base) = base.map (tie base) :=
  List.map_congr_left fun _ hitem => settle_of_mem hitem

theorem untied_settle (base : List Item) (item : Item) :
    (settle base item).untied = item.untied := by
  by_cases h : item ∈ base
  · rw [settle_of_mem h, untied_tie]
  · rw [settle_of_not_mem fun _ => h]

/-- Freezing the base has only written names that the pairs of the whole call for. -/
theorem partialTie_settle (hbase : Coherent base)
    (hkept : ∀ item ∈ base, item.isReserved = false → item ∈ items) :
    PartialTie items (settleEnable base) (settleField base) := by
  have hpairs : ∀ {enable field}, Pairs base enable field → Pairs items enable field := by
    rintro enable field ⟨henable, hfield, hnamed⟩
    exact ⟨hkept _ henable rfl, hkept _ hfield rfl, hnamed⟩
  constructor
  · intro enable _
    by_cases hmem : Item.enable enable ∈ base
    · rw [settleEnable, if_pos hmem]
      rcases hbase.partialTie.enable_cases hmem with hsame | ⟨field, hpair, hfits, hchange⟩
      · exact .inl hsame
      · exact .inr ⟨field, hpairs hpair, hfits, hchange⟩
    · exact .inl (if_neg hmem)
  · intro field _
    by_cases hmem : Item.field field ∈ base
    · rw [settleField, if_pos hmem]
      rcases hbase.partialTie.field_cases hmem with hsame | ⟨enable, hpair, hopen, hchange⟩
      · exact .inl hsame
      · exact .inr ⟨enable, hpairs hpair, hopen, hchange⟩
    · exact .inl (if_neg hmem)

end Linkage

namespace Blueprint

open Linkage

variable {name : String} {items base : List Item} {dynamicSize : Bool} {layout : Layout}

/-- Items freeze alike before and after they have been tied in part. -/
theorem freeze_mapTies {onEnable : Enable → Enable} {onField : Field → Field}
    (huntied : ∀ item, (Item.mapTies onEnable onField item).untied = item.untied)
    (hpartial : (items.filterMap Item.name?).Nodup → PartialTie items onEnable onField) :
    freeze name (items.map (Item.mapTies onEnable onField)) dynamicSize = .ok layout ↔
      freeze name items dynamicSize = .ok layout := by
  let changed := items.map (Item.mapTies onEnable onField)
  have hsame : changed.map Item.untied = items.map Item.untied :=
    Item.map_untied_change huntied items
  have hwide : (∀ item ∈ changed, 0 < item.bits) ↔ ∀ item ∈ items, 0 < item.bits := by
    simp [changed, Item.bits_change huntied]
  rw [freeze_eq_ok, freeze_eq_ok, hwide, Item.filterMap_name?_congr hsame]
  apply and_congr_right
  rintro ⟨_, hnames⟩
  have hafter : (changed.filterMap Item.name?).Nodup := by
    rw [Item.filterMap_name?_congr hsame]
    exact hnames
  have hlinkable : Linkable changed ↔ Linkable items := by
    constructor
    · intro h
      exact ((hpartial hnames).coherent_of_map hnames (h.coherent hafter)).linkable
    · intro h
      exact ((hpartial hnames).coherent_map hnames (h.coherent hnames)).linkable
  rw [hlinkable]
  apply and_congr_right
  intro h
  have htied : changed.map (tie changed) = items.map (tie items) := by
    rw [List.map_map]
    exact List.map_congr_left fun item hitem =>
      (hpartial hnames).mapTies_tie hnames (h.coherent hnames) hitem
  rw [htied]

theorem freeze_map_settle (hbase : Coherent base)
    (hkept : ∀ item ∈ base, item.isReserved = false → item ∈ items) :
    freeze name (items.map (settle base)) dynamicSize = .ok layout ↔
      freeze name items dynamicSize = .ok layout :=
  freeze_mapTies (untied_settle base) fun _ => partialTie_settle hbase hkept

/-- Steps on a base whose names they do not reuse leave the frozen base and the base before
freezing in the same relation. -/
theorem place_map_settle {owner : String} {steps : List Step}
    (hfresh : ∀ step ∈ steps, step.item.isReserved = false → step.item ∉ base) :
    steps.foldlM (placeStep owner) (base.map (tie base)) =
      (steps.foldlM (placeStep owner) base).map (List.map (settle base)) := by
  have hsteps : ∀ step ∈ steps, settle base step.item = step.item := fun step hstep =>
    settle_of_not_mem (hfresh step hstep)
  rw [← map_settle]
  exact place_map (untied_settle base) hsteps base

/-- Steps after a frozen base build what the same steps build after the base. -/
theorem place_freeze_iff {owner : String} {steps : List Step} (hbase : Coherent base) :
    (∃ placed, steps.foldlM (placeStep owner) (base.map (tie base)) = .ok placed ∧
        freeze name placed dynamicSize = .ok layout) ↔
      ∃ placed, steps.foldlM (placeStep owner) base = .ok placed ∧
        freeze name placed dynamicSize = .ok layout := by
  constructor
  · rintro ⟨placed, hplaced, hfreeze⟩
    obtain ⟨⟨_, hnames⟩, _⟩ := freeze_eq_ok.mp hfreeze
    have hfresh : ∀ step ∈ steps, step.item.isReserved = false → step.item ∉ base := by
      intro step hstep hsolid hmem
      have hkept := Item.isReserved_change (untied_tie base) step.item
      exact fresh_of_place hplaced hnames hstep hsolid (List.mem_map_of_mem hmem)
        (hkept.trans hsolid) (Item.name?_change (untied_tie base) step.item)
    rw [place_map_settle hfresh, Fallible.map_eq_ok] at hplaced
    obtain ⟨declared, hdeclared, rfl⟩ := hplaced
    refine ⟨declared, hdeclared, ?_⟩
    exact (freeze_map_settle hbase fun item => mem_of_place hdeclared).mp hfreeze
  · rintro ⟨placed, hplaced, hfreeze⟩
    obtain ⟨⟨_, hnames⟩, _⟩ := freeze_eq_ok.mp hfreeze
    have hfresh : ∀ step ∈ steps, step.item.isReserved = false → step.item ∉ base :=
      fun step hstep hsolid hmem => fresh_of_place hplaced hnames hstep hsolid hmem hsolid rfl
    refine ⟨placed.map (settle base), ?_, ?_⟩
    · rw [place_map_settle hfresh, hplaced]
      rfl
    · exact (freeze_map_settle hbase fun item => mem_of_place hplaced).mpr hfreeze

/-- Extending a structure by some steps builds what all steps build in one go, whatever the name,
the strictness and the size flag; in particular extending by no steps gives the structure again. -/
theorem build_extend {start : String} {baseDynamic : Bool} {first : List Step} {base : Layout}
    (hbase : ({ name := start, steps := first, dynamicSize := baseDynamic } : Blueprint).build =
      .ok base) :
    (∀ (name : String) (rest : List Step) (strict dynamicSize : Bool) (layout : Layout),
      { extend name base with steps := rest, strict, dynamicSize }.build = .ok layout ↔
        { new name with steps := first ++ rest, strict, dynamicSize }.build = .ok layout) ∧
      (extend base.name base).build = .ok base := by
  obtain ⟨⟨declared, hdeclared, hfreeze⟩, _⟩ := build_iff.mp hbase
  obtain ⟨⟨_, hnames⟩, hlinkable, hlayout⟩ := freeze_eq_ok.mp hfreeze
  have hcoherent := hlinkable.coherent hnames
  have hitems : base.items = declared.map (tie declared) := by rw [hlayout, items_laidOut]
  have hstages : ∀ (name : String) (rest : List Step) (strict dynamicSize : Bool) (layout : Layout),
      { extend name base with steps := rest, strict, dynamicSize }.build = .ok layout ↔
        { new name with steps := first ++ rest, strict, dynamicSize }.build = .ok layout := by
    intro name rest strict dynamicSize layout
    have hstart : { extend name base with steps := rest, strict, dynamicSize }.place =
        rest.foldlM (placeStep name) (declared.map (tie declared)) := by
      rw [← hitems]
      rfl
    have hwhole : { new name with steps := first ++ rest, strict, dynamicSize }.place =
        rest.foldlM (placeStep name) declared := by
      have hfirst : first.foldlM (placeStep name) [] = .ok declared :=
        (Fallible.foldlM_eq_ok_congr fun _ _ _ => placeStep_eq_ok_congr).mp hdeclared
      rw [place, new, List.foldlM_append, hfirst]
      rfl
    rw [build_iff, build_iff, hstart, hwhole]
    exact and_congr_left fun _ => place_freeze_iff hcoherent
  refine ⟨hstages, ?_⟩
  have hname : base.name = start := by
    rw [hlayout]
    rfl
  have hdynamic : base.dynamicSize = baseDynamic := by
    rw [hlayout]
    rfl
  have hagain := hstages base.name [] false base.dynamicSize base
  rw [List.append_nil, hname, hdynamic] at hagain
  have hextend := hagain.mpr hbase
  rw [← hname, ← hdynamic] at hextend
  exact hextend

end Blueprint

namespace Layout.Sample

/-- The frame and its structure in one go are the frame extended by its structure, although the
frozen frame leaves its gate without a field. -/
theorem full_in_one_go :
    { Blueprint.new "full" with steps := frame.steps ++ full.steps }.build = .ok fullLayout ∧
      (Blueprint.extend frameLayout.name frameLayout).build = .ok frameLayout := by
  have hframe : { name := "frame", steps := frame.steps, dynamicSize := false : Blueprint }.build =
      .ok frameLayout := rfl
  have hfull : { Blueprint.extend "full" frameLayout with
      steps := full.steps, strict := false, dynamicSize := false }.build = .ok fullLayout := rfl
  obtain ⟨hstages, hagain⟩ := Blueprint.build_extend hframe
  exact ⟨(hstages "full" full.steps false false fullLayout).mp hfull, hagain⟩

end Layout.Sample

end RadioPacket
