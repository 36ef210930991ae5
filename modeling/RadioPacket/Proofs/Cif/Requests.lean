import RadioPacket.Proofs.Cif.InPlace
import RadioPacket.Proofs.Cif.Mandatory
import RadioPacket.Proofs.Container.Requests

/-!
# Requests for modes of groups

A group keeps the modes of payload fields in the payload and those of flags in the indicator word,
where the presence of payload fields is kept as well.  Main statement: in structures and in groups
alike the mode of a field follows from the requests for it, and what is once mandatory stays so.
-/

namespace RadioPacket

namespace CifContainer

variable {c d : CifContainer} {name : String}

theorem index?_congr (hgroup : d.group = c.group) (name : String) :
    d.index? name = c.index? name := by
  rw [index?, index?, hgroup]

theorem mode_payload {index : Nat} (h : c.index? name = some index) :
    c.mode name = .ok (c.modeAt index) := by rw [mode, h]

theorem mode_word (h : c.index? name = none) : c.mode name = c.enables.mode name := by
  rw [mode, h]

theorem Fits.mode_word_applyContent (h : c.Fits) {content : CifContent}
    (hcontent : content ∈ c.group.content) (effect : Effect) (index : Nat) {mode : Mode}
    (hmode : c.enables.mode name = .ok mode) :
    (effect.applyContent c index content).enables.mode name = .ok mode := by
  obtain ⟨place, slot, field, hplace, hslot, hfield, rfl⟩ := Container.mode_eq_ok.mp hmode
  have hlayout : (effect.applyContent c index content).enables.layout = c.enables.layout := by
    unfold Effect.applyContent
    split
    · rfl
    · rfl
  -- Modes are kept by fields, and what is written is an enable.
  have hne : content.enable ≠ place := by
    rintro rfl
    obtain ⟨henable, _, _⟩ := h.built.enable_slot hcontent
    rw [h.layout, henable] at hslot
    cases hslot
    cases hfield
  rw [Container.mode_eq_ok, hlayout]
  refine ⟨place, slot, field, hplace, hslot, hfield, ?_⟩
  rw [Container.modeAt, Container.modeAt, Effect.getElem?_applyContent_of_ne hne]

end CifContainer

namespace CifOperation

variable {c : CifContainer} {name : String} {mode : Mode}

theorem eq_changeMode_of_toOperation {operation : CifOperation} {requested : Mode}
    (h : operation.toOperation = .changeMode name requested) :
    operation = .changeMode name requested := by
  cases operation with
  | changeMode _ _ =>
      cases h
      rfl
  | assign _ _ => cases h
  | clear _ => cases h
  | touch _ => cases h
  | within _ _ => cases h

/-- The mode that an operation asks for, for the field of the given name. -/
def request? (name : String) (operation : CifOperation) : Option Mode :=
  operation.toOperation.request? name

theorem request?_eq_some {operation : CifOperation} {requested : Mode} :
    operation.request? name = some requested ↔ operation = .changeMode name requested := by
  rw [request?, Operation.request?_eq_some]
  constructor
  · exact eq_changeMode_of_toOperation
  · rintro rfl
    rfl

/-- A request is for the field of its name. -/
theorem request?_of_name_ne {operation : CifOperation} (hname : operation.name ≠ name) :
    operation.request? name = none := by
  apply Option.eq_none_iff_forall_ne_some.mpr
  intro requested hrequest
  obtain rfl := request?_eq_some.mp hrequest
  exact hname rfl

theorem request?_of_enters {operation : CifOperation} (henters : operation.enters = true) :
    operation.request? name = none := by
  apply Option.eq_none_iff_forall_ne_some.mpr
  intro requested hrequest
  obtain rfl := request?_eq_some.mp hrequest
  cases henters

theorem operand?_toOperation (operation : CifOperation) :
    operation.toOperation.operand? = operation.operand? := by
  cases operation with
  | assign name value =>
      cases value with
      | scalar _ => rfl
      | record _ => rfl
  | clear _ => rfl
  | changeMode _ _ => rfl
  | touch _ => rfl
  | within _ _ => rfl

/-- What an operation makes of the mode of a payload field. -/
theorem heeds_payload (operation : CifOperation) (h : c.Fits) {index : Nat} {content : CifContent}
    (hcontent : c.group.content[index]? = some content) :
    Heeds content.name (operation.request? content.name) (operation.run c).2 (c.modeAt index)
      ((operation.run c).1.modeAt index) := by
  obtain ⟨cell, hcell, hholds⟩ := exists_at h.holds hcontent
  by_cases hname : operation.name = content.name
  · let effect := operation.toOperation.effect content.gatedSlot cell
    have hafter : (effect.applyContent c index content).cells[index]? = some effect.cell := by
      rw [Effect.cells_applyContent]
      exact List.getElem?_set_self (List.getElem?_eq_some_iff.mp hcell).1
    have hnamed : ∀ asked requested, operation.toOperation = .changeMode asked requested →
        asked = content.name := by
      intro asked requested hasked
      rw [eq_changeMode_of_toOperation hasked] at hname
      exact hname
    rw [operation.run_own h hcontent hname hcell, CifContainer.modeAt_eq hcell,
      CifContainer.modeAt_eq hafter]
    exact operation.toOperation.heeds_effect rfl (CifContent.holds_gatedSlot hholds) hnamed
  · obtain ⟨hsame, _⟩ := (operation.spares h).2 index content hcontent hname
    rw [request?_of_name_ne hname, CifContainer.modeAt, CifContainer.modeAt, hsame]
    exact .idle

theorem heeds_flag (operation : CifOperation) (h : c.Fits)
    (hoperand : ∀ operand, operation.operand? = some operand → operand.Fits)
    (hother : ∀ content ∈ c.group.content, name ≠ content.name)
    (hmode : c.enables.mode name = .ok mode) :
    ∃ next, (operation.run c).1.enables.mode name = .ok next ∧
      Heeds name (operation.request? name) (operation.run c).2 mode next := by
  rcases c.group.names_or operation.name with ⟨own, hown, hname⟩ | hword
  · obtain ⟨place, hplace⟩ := List.mem_iff_getElem?.mp hown
    obtain ⟨cell, hcell, _⟩ := exists_at h.holds hplace
    have hne : operation.name ≠ name := by
      rintro rfl
      exact hother own hown hname.symm
    rw [operation.run_own h hplace hname.symm hcell, request?_of_name_ne hne]
    exact ⟨mode, h.mode_word_applyContent hown _ place hmode, .idle⟩
  · have hindex := CifContainer.index?_eq_none hword
    cases henters : operation.enters with
    | false =>
        rw [operation.run_word hindex henters]
        apply operation.toOperation.heeds_run h.word _ hmode
        rwa [operand?_toOperation]
    | true =>
        obtain ⟨error, hrefused⟩ := operation.refused_of_enters hindex henters
        rw [hrefused, request?_of_enters henters]
        exact ⟨mode, hmode, .idle⟩

/-- What an operation makes of the mode of a payload field or of a flag. -/
theorem heeds_run (operation : CifOperation) (h : c.Fits)
    (hoperand : ∀ operand, operation.operand? = some operand → operand.Fits)
    (hmode : c.mode name = .ok mode) :
    ∃ next, (operation.run c).1.mode name = .ok next ∧
      Heeds name (operation.request? name) (operation.run c).2 mode next := by
  have hindex := CifContainer.index?_congr (operation.spares h).1 name
  rcases c.group.names_or name with ⟨content, hmem, rfl⟩ | hother
  · obtain ⟨index, hcontent⟩ := List.mem_iff_getElem?.mp hmem
    have hfound : c.index? content.name = some index := h.built.index?_content hcontent
    rw [CifContainer.mode_payload hfound] at hmode
    cases hmode
    exact ⟨_, CifContainer.mode_payload (hindex.trans hfound), operation.heeds_payload h hcontent⟩
  · have hnone := CifContainer.index?_eq_none hother
    rw [CifContainer.mode_word hnone] at hmode
    rw [CifContainer.mode_word (hindex.trans hnone)]
    exact operation.heeds_flag h hoperand hother hmode

/-- A granted request for a mode of present fields makes the field present. -/
theorem shows_changeMode (h : c.Fits) (hmode : c.mode name = .ok mode) {requested next : Mode}
    (hrequest : mode.request requested name = .ok next) (hpresent : next.presence? = some true) :
    ∃ value, ((changeMode name requested).run c).1.read name = .ok (some value) := by
  have hindex := CifContainer.index?_congr ((changeMode name requested).spares h).1 name
  rcases c.group.names_or name with ⟨content, hmem, rfl⟩ | hother
  · obtain ⟨index, hcontent⟩ := List.mem_iff_getElem?.mp hmem
    obtain ⟨cell, hcell, _⟩ := exists_at h.holds hcontent
    have hfound : c.index? content.name = some index := h.built.index?_content hcontent
    rw [CifContainer.mode_payload hfound, CifContainer.modeAt_eq hcell] at hmode
    cases hmode
    let effect : Effect := ⟨cell.withMode next, some true, .ok ()⟩
    have hrun : ((changeMode content.name requested).run c).1 =
        effect.applyContent c index content := by
      rw [(changeMode content.name requested).run_own h hcontent rfl hcell, toOperation,
        Operation.effect_granted rfl hrequest, hpresent]
    have hafter : (effect.applyContent c index content).cells[index]? = some effect.cell := by
      rw [Effect.cells_applyContent]
      exact List.getElem?_set_self (List.getElem?_eq_some_iff.mp hcell).1
    have hset : Cell.isSetAt (effect.applyContent c index content).enables.cells content.enable =
        true := Effect.isSetAt_applyContent (h.enable_cell hcontent)
    have hdeclared : (effect.applyContent c index content).group.content[index]? =
        some content := by
      rw [Effect.group_applyContent]
      exact hcontent
    refine ⟨content.type.valueOf effect.cell, ?_⟩
    rw [CifContainer.read, hindex.trans hfound, hrun]
    simp only [CifContainer.get?_eq hdeclared hafter, hset, if_true]
  · have hnone := CifContainer.index?_eq_none hother
    rw [CifContainer.mode_word hnone] at hmode
    rw [CifContainer.read, hindex.trans hnone, (changeMode name requested).run_word hnone rfl]
    exact Operation.shows_changeMode h.word hmode hrequest hpresent

end CifOperation

namespace Moded

/-- Containers of groups, with the operations that change them in place. -/
def groups : Moded CifContainer CifOperation where
  perform := CifOperation.perform
  mode := CifContainer.mode
  read := CifContainer.read
  changeMode := .changeMode
  request? := CifOperation.request?

theorem next_groups {c : CifContainer} (h : c.Fits) (operation : CifOperation) :
    groups.next c operation = (operation.run c).1 ∧
      groups.answer c operation = (operation.run c).2 := by
  have hending : InPlace.ending (operation.perform c) = operation.run c := by
    rw [operation.perform_eq h, InPlace.ending_outcome]
  exact ⟨congrArg Prod.fst hending, congrArg Prod.snd hending⟩

theorem sound_groups :
    groups.Sound CifContainer.Fits fun operation =>
      ∀ operand, operation.operand? = some operand → operand.Fits where
  keeps {c operation} h hoperand := by
    rw [(next_groups h operation).1]
    exact operation.fits_run h hoperand
  heeds {c operation name mode} h hoperand hmode := by
    obtain ⟨hnext, hanswer⟩ := next_groups h operation
    rw [hnext, hanswer]
    exact operation.heeds_run h hoperand hmode
  request?_eq_some := CifOperation.request?_eq_some
  admits_changeMode _ _ := nofun
  still {c name requested error} h hrefused := by
    obtain ⟨hnext, hanswer⟩ := next_groups h (.changeMode name requested)
    change groups.next c (.changeMode name requested) = c
    change groups.answer c (.changeMode name requested) = _ at hrefused
    rw [hanswer] at hrefused
    rw [hnext]
    exact CifOperation.eq_of_settle_refused hrefused
  shows {c name mode requested next} h hmode hrequest hpresent := by
    change ∃ value, (groups.next c (.changeMode name requested)).read name = .ok (some value)
    rw [(next_groups h _).1]
    exact CifOperation.shows_changeMode h hmode hrequest hpresent

end Moded

/-- Mandatory absorbs.  In the course of any run of operations on a container, of a structure or of
a group, the mode of a field changes only by granted requests to this field, and once it is
mandatory it stays so: from then on a request to relax it is refused and leaves everything as it
was, and a request for a mode of present fields is granted and makes the field present.  All
reachable containers fit (`Container.Reachable.fits`, `CifContainer.Reachable.fits`).  So do the
structures inside them (`Container.Fits.nestedAt`, `CifContainer.Fits.enter`), each of which is a
container of its own: to assign a structure puts another container in its place. -/
theorem mandatory_absorbs :
    (∀ c : Container, c.Fits → ∀ (name : String) (mode : Mode), c.mode name = .ok mode →
      ∀ operations : List Operation,
        (∀ operation ∈ operations, ∀ operand, operation.operand? = some operand → operand.Fits) →
        Moded.structures.Absorbs name c mode operations) ∧
      ∀ c : CifContainer, c.Fits → ∀ (name : String) (mode : Mode), c.mode name = .ok mode →
        ∀ operations : List CifOperation,
          (∀ operation ∈ operations, ∀ operand, operation.operand? = some operand →
            operand.Fits) →
          Moded.groups.Absorbs name c mode operations := by
  constructor
  · intro c hc name mode hmode operations hoperands
    exact Moded.sound_structures.absorbs hc hoperands hmode
  · intro c hc name mode hmode operations hoperands
    exact Moded.sound_groups.absorbs hc hoperands hmode

namespace CifBlueprint.Sample

open Layout.Sample

/-- A report whose level has become mandatory. -/
def levelled : Container := ((Operation.changeMode "level" .mandatory).run (.new reportLayout)).1

/-- A container of `tuned` whose gain has become mandatory. -/
def gained : CifContainer := ((CifOperation.changeMode "gain" .mandatory).run (.new tuned)).1

/-- Neither clearing the fields, nor asking for other modes, here or in a structure inside, takes
the lock away. -/
theorem level_and_gain_locked :
    levelled.Reachable ∧ gained.Reachable ∧ levelled.mode "level" = .ok .mandatory ∧
      gained.mode "gain" = .ok .mandatory ∧
      Moded.structures.Locked "level"
        (Moded.structures.after levelled [.clear "level", .changeMode "level" .optional]) ∧
      Moded.groups.Locked "gain"
        (Moded.groups.after gained
          [.within "pair" (.changeMode "kind" .required), .changeMode "gain" .disabled,
            .clear "gain"]) := by
  have hlevelled : levelled.Reachable := .run (.new built_reportLayout) nofun
  have hgained : gained.Reachable := .run (.new built_tuned) nofun
  have hlevel : levelled.mode "level" = .ok .mandatory := rfl
  have hgain : gained.mode "gain" = .ok .mandatory := rfl
  have hloose : ∀ operation ∈ [Operation.clear "level", .changeMode "level" .optional],
      ∀ operand, operation.operand? = some operand → operand.Fits := by
    intro operation hmem operand hoperand
    simp only [List.mem_cons, List.not_mem_nil, or_false] at hmem
    rcases hmem with rfl | rfl
    all_goals cases hoperand
  have hquiet : ∀ operation ∈ [CifOperation.within "pair" (.changeMode "kind" .required),
      .changeMode "gain" .disabled, .clear "gain"],
      ∀ operand, operation.operand? = some operand → operand.Fits := by
    intro operation hmem operand hoperand
    simp only [List.mem_cons, List.not_mem_nil, or_false] at hmem
    rcases hmem with rfl | rfl | rfl
    all_goals cases hoperand
  obtain ⟨hstructures, hgroups⟩ := mandatory_absorbs
  have hreport := hstructures levelled hlevelled.fits "level" .mandatory hlevel _ hloose
  have htuned := hgroups gained hgained.fits "gain" .mandatory hgain _ hquiet
  exact ⟨hlevelled, hgained, hlevel, hgain, hreport.locked rfl, htuned.locked rfl⟩

end CifBlueprint.Sample

end RadioPacket
