import RadioPacket.Proofs.Cif.RoundTrip
import RadioPacket.Proofs.Cif.Simulation
import RadioPacket.Proofs.Container.Mandatory

/-!
# Mandatory payload fields

A payload field of a group keeps its mode in the payload and its presence in the indicator word, and
clearing it is accepted in every mode as well.  The enable of a payload field has the name of the
field, which leads to the field first, so that no operation reaches the enable by itself.
-/

namespace RadioPacket

/-- A payload field as a gated field of a structure. -/
def CifContent.gatedSlot (content : CifContent) : Slot :=
  ⟨.field (content.gated content.name), content.enablePosition, some content.enable⟩

theorem CifContent.holds_gatedSlot {content : CifContent} {cell : Cell}
    (h : content.slot.Holds cell) : content.gatedSlot.Holds cell := by
  cases h with
  | enable hitem => cases hitem
  | leaf hitem htype hnormal =>
      cases hitem
      exact .leaf rfl htype hnormal
  | record hitem htype hcells =>
      cases hitem
      exact .record rfl htype hcells
  | reserved hitem => cases hitem

/-! ## Histories -/

/-- A step of a history: an operation on a container of a group. -/
structure CifChange where
  before : CifContainer
  operation : CifOperation

namespace CifChange

variable (change : CifChange)

def after : CifContainer := (change.operation.run change.before).1

def accepted : Bool := (change.operation.run change.before).2.isOk

/-- How a change deals with the presence of a payload field. -/
def dealing? (index : Nat) (content : CifContent) : Option Dealing :=
  if change.operation.name = content.name then
    change.operation.toOperation.dealing? content.gatedSlot change.accepted
      (change.after.modeAt index)
  else none

end CifChange

namespace CifContainer

/-- The container after some operations, some of which may be refused. -/
def after (c : CifContainer) : List CifOperation → CifContainer
  | [] => c
  | operation :: operations => (operation.run c).1.after operations

/-- The changes that some operations make one after the other. -/
def history (c : CifContainer) : List CifOperation → List CifChange
  | [] => []
  | operation :: operations => ⟨c, operation⟩ :: (operation.run c).1.history operations

end CifContainer

/-! ## One change -/

theorem CifGroup.Built.eq_of_enable {group : CifGroup} (h : group.Built) {a b : CifContent}
    (ha : a ∈ group.content) (hb : b ∈ group.content) (hsame : a.enable = b.enable) : a = b :=
  List.inj_on_of_nodup_map h.nodup_enables ha hb hsame

namespace Effect

variable {effect : Effect} {c : CifContainer} {index : Nat} {content : CifContent}

@[simp] theorem group_applyContent : (effect.applyContent c index content).group = c.group := by
  unfold applyContent
  split
  · rfl
  · rfl

theorem cells_applyContent :
    (effect.applyContent c index content).cells = c.cells.set index effect.cell := by
  unfold applyContent
  split
  · rfl
  · rfl

/-- The enable of the field gets the presence that is decided, and keeps its state if none is. -/
theorem isSetAt_applyContent {present : Bool}
    (hcell : c.enables.cells[content.enable]? = some (.enable present)) :
    Cell.isSetAt (effect.applyContent c index content).enables.cells content.enable =
      effect.presence.getD present := by
  have hlt := (List.getElem?_eq_some_iff.mp hcell).1
  unfold applyContent
  rcases effect.presence with _ | decided
  · exact Cell.isSetAt_eq hcell
  · exact Cell.isSetAt_eq (List.getElem?_set_self hlt)

theorem getElem?_applyContent_of_ne {gate : Nat} (hne : content.enable ≠ gate) :
    (effect.applyContent c index content).enables.cells[gate]? = c.enables.cells[gate]? := by
  unfold applyContent
  rcases effect.presence with _ | decided
  · rfl
  · exact List.getElem?_set_ne hne

end Effect

namespace CifContainer

variable {c : CifContainer} {index : Nat} {content : CifContent}

theorem Fits.enable_cell (h : c.Fits) (hcontent : c.group.content[index]? = some content) :
    c.enables.cells[content.enable]? = some (.enable (c.announces content)) := by
  obtain ⟨hslot, _, _⟩ := h.built.enable_slot (List.mem_of_getElem? hcontent)
  exact h.word.enable_cell (h.layout.symm ▸ hslot) rfl

theorem enter_eq_error {name : String} (h : c.index? name = none) :
    c.enter name = .error (.unknownField name) := by
  rw [enter, h]

end CifContainer

namespace CifOperation

variable {c : CifContainer}

theorem refused_of_enters (operation : CifOperation) (hindex : c.index? operation.name = none)
    (henters : operation.enters = true) : ∃ error, operation.run c = (c, .error error) := by
  cases operation with
  | assign _ _ => cases henters
  | clear _ => cases henters
  | changeMode _ _ => cases henters
  | touch name =>
      have hrefused : c.enter name = .error (.unknownField name) :=
        CifContainer.enter_eq_error hindex
      rw [run, hrefused]
      exact ⟨_, rfl⟩
  | within name operation =>
      have hrefused : c.enter name = .error (.unknownField name) :=
        CifContainer.enter_eq_error hindex
      rw [run, CifContainer.within, hrefused]
      exact ⟨_, rfl⟩

/-- An operation on the name of no payload field leaves everything but the word as it was, and in
the word the enables. -/
theorem run_other (operation : CifOperation) (h : c.Fits)
    (hother : ∀ content ∈ c.group.content, operation.name ≠ content.name) :
    ∃ word, (operation.run c).1 = { c with enables := word } ∧
      ∀ content ∈ c.group.content,
        word.cells[content.enable]? = c.enables.cells[content.enable]? := by
  have hindex := CifContainer.index?_eq_none hother
  cases henters : operation.enters with
  | true =>
      obtain ⟨error, hrefused⟩ := operation.refused_of_enters hindex henters
      exact ⟨c.enables, by rw [hrefused], fun _ _ => rfl⟩
  | false =>
      refine ⟨(operation.toOperation.run c.enables).1, by rw [operation.run_word hindex henters], ?_⟩
      intro content hcontent
      obtain ⟨error, hrefused⟩ | ⟨place, found, htarget, hfound⟩ :=
        operation.toOperation.refused_or_exists_slot c.enables
      · rw [hrefused]
      · -- The name of the enable is the one of its payload field.
        have hne : place ≠ content.enable := by
          rintro rfl
          obtain ⟨hslot, _, _⟩ := h.built.enable_slot hcontent
          rw [operation.target?_toOperation] at htarget
          obtain ⟨slot, hat, hnamed⟩ := h.word.built.sound.index?_eq_some.mp htarget
          rw [h.layout, hslot] at hat
          cases hat
          exact hother content hcontent (Option.some.inj hnamed).symm
        have hunlinked : found.link = none :=
          h.built.unlinked (List.mem_of_getElem? (h.layout ▸ hfound))
        have hapart : ∀ other, found.link ≠ some other := by
          intro other hlinked
          rw [hunlinked] at hlinked
          cases hlinked
        obtain ⟨old, hold, _⟩ := h.word.holds.cell hfound
        rw [operation.toOperation.run_eq htarget hfound (hapart place) hold]
        exact Effect.getElem?_apply_of_ne hne (hapart content.enable)

/-- An operation on the name of a payload field has the effect that it has on a gated field of a
structure. -/
theorem run_own (operation : CifOperation) (h : c.Fits) {index : Nat} {content : CifContent}
    (hcontent : c.group.content[index]? = some content) (hname : operation.name = content.name)
    {cell : Cell} (hcell : c.cells[index]? = some cell) :
    operation.run c =
      ((operation.toOperation.effect content.gatedSlot cell).applyContent c index content,
        (operation.toOperation.effect content.gatedSlot cell).answer) := by
  have hindex : c.index? operation.name = some index := by
    rw [hname]
    exact h.built.index?_content hcontent
  exact operation.run_content hindex hcontent hcell rfl nofun

theorem spares (operation : CifOperation) (h : c.Fits) :
    (operation.run c).1.group = c.group ∧
      ∀ (index : Nat) (content : CifContent), c.group.content[index]? = some content →
        operation.name ≠ content.name →
        (operation.run c).1.cells[index]? = c.cells[index]? ∧
          (operation.run c).1.enables.cells[content.enable]? =
            c.enables.cells[content.enable]? := by
  rcases c.group.names_or operation.name with ⟨own, hown, hname⟩ | hother
  · obtain ⟨place, hplace⟩ := List.mem_iff_getElem?.mp hown
    obtain ⟨cell, hcell, _⟩ := exists_at h.holds hplace
    rw [operation.run_own h hplace hname.symm hcell]
    refine ⟨Effect.group_applyContent, ?_⟩
    intro index content hcontent hnames
    have hindex : place ≠ index := by
      rintro rfl
      obtain rfl := Option.some.inj (hcontent.symm.trans hplace)
      exact hnames hname.symm
    have henable : own.enable ≠ content.enable := by
      intro hshared
      obtain rfl := h.built.eq_of_enable hown (List.mem_of_getElem? hcontent) hshared
      exact hnames hname.symm
    rw [Effect.cells_applyContent]
    exact ⟨List.getElem?_set_ne hindex, Effect.getElem?_applyContent_of_ne henable⟩
  · obtain ⟨word, hrun, hgates⟩ := operation.run_other h hother
    rw [hrun]
    refine ⟨rfl, ?_⟩
    intro index content hcontent _
    exact ⟨rfl, hgates content (List.mem_of_getElem? hcontent)⟩

end CifOperation

theorem CifChange.dealt {change : CifChange} (h : change.before.Fits) {index : Nat}
    {content : CifContent} (hcontent : change.before.group.content[index]? = some content) :
    Dealt (change.dealing? index content) (change.before.modeAt index) (change.after.modeAt index)
      (change.before.announces content) (change.after.announces content) := by
  obtain ⟨cell, hcell, hholds⟩ := exists_at h.holds hcontent
  by_cases hname : change.operation.name = content.name
  · let effect := change.operation.toOperation.effect content.gatedSlot cell
    have hrun := change.operation.run_own h hcontent hname hcell
    have hafter : change.after.cells[index]? = some effect.cell := by
      rw [after, hrun, Effect.cells_applyContent]
      exact List.getElem?_set_self (List.getElem?_eq_some_iff.mp hcell).1
    have hstate : change.after.announces content =
        effect.presence.getD (change.before.announces content) := by
      rw [after, hrun]
      exact Effect.isSetAt_applyContent (h.enable_cell hcontent)
    rw [dealing?, if_pos hname, accepted, hrun, CifContainer.modeAt_eq hcell,
      CifContainer.modeAt_eq hafter, hstate]
    exact change.operation.toOperation.dealt_effect rfl (CifContent.holds_gatedSlot hholds) _
  · obtain ⟨hsame, hgate⟩ := (change.operation.spares h).2 index content hcontent hname
    rw [dealing?, if_neg hname, CifContainer.modeAt, CifContainer.modeAt,
      CifContainer.announces, CifContainer.announces, Cell.isSetAt, Cell.isSetAt, after, hsame,
      hgate]
    exact .idle

/-! ## All changes -/

namespace CifContainer

variable {c : CifContainer} {index : Nat} {content : CifContent}

theorem Fits.keeps_after (h : c.Fits) (operations : List CifOperation)
    (hoperands : ∀ operation ∈ operations, ∀ operand, operation.operand? = some operand →
      operand.Fits) : (c.after operations).group = c.group ∧ (c.after operations).Fits := by
  induction operations generalizing c with
  | nil => exact ⟨rfl, h⟩
  | cons operation operations ih =>
      have hnext := operation.fits_run h (hoperands operation List.mem_cons_self)
      obtain ⟨hrest, hlast⟩ := ih hnext fun later hlater =>
        hoperands later (List.mem_cons_of_mem operation hlater)
      exact ⟨hrest.trans (operation.spares h).1, hlast⟩

/-- After any history the mode and the enable of a payload field are as the latest dealing left
them. -/
theorem Fits.standing_after (h : c.Fits) (hcontent : c.group.content[index]? = some content)
    (operations : List CifOperation)
    (hoperands : ∀ operation ∈ operations, ∀ operand, operation.operand? = some operand →
      operand.Fits)
    {last : Dealing} (hlast : Standing last (c.modeAt index) (c.announces content)) :
    Standing ((latest? (·.dealing? index content) (c.history operations)).getD last)
      ((c.after operations).modeAt index) ((c.after operations).announces content) := by
  induction operations generalizing c last with
  | nil => exact hlast
  | cons operation operations ih =>
      let change : CifChange := ⟨c, operation⟩
      have hdealt : Dealt (change.dealing? index content) _ _ _ _ := change.dealt h hcontent
      have hnext := operation.fits_run h (hoperands operation List.mem_cons_self)
      rw [history, latest?_cons, Option.getD_or]
      exact ih hnext ((operation.spares h).1.symm ▸ hcontent)
        (fun later hlater => hoperands later (List.mem_cons_of_mem _ hlater)) (hlast.step hdealt)

theorem standing_new {group : CifGroup} (h : group.Built)
    (hcontent : group.content[index]? = some content) :
    Standing (.byMode (content.mode.presence?.getD false)) ((CifContainer.new group).modeAt index)
      ((CifContainer.new group).announces content) := by
  have hmem := List.mem_of_getElem? hcontent
  obtain ⟨hslot, _, _⟩ := h.enable_slot hmem
  have hstate : (CifContainer.new group).announces content = content.mode.presence?.getD false :=
    Cell.isSetAt_eq (getElem?_foldl_enable h.nodup_enables hmem (Container.getElem?_new hslot))
  have hcell : (CifContainer.new group).cells[index]? =
      some (content.type.freshCell content.mode) := by
    rw [new, freshCells, List.getElem?_map, hcontent, Option.map_some]
  rw [modeAt_eq hcell, FieldType.mode?_freshCell, hstate]
  exact .declared content.mode

/-- The payload field at an index is shown or not, and its bit is packed as one or as zero. -/
structure ShowsPresence (c : CifContainer) (index : Nat) (content : CifContent)
    (present : Bool) : Prop where
  shown : (c.get? index).isSome = present
  packed : Bits.bitAt c.pack (31 - content.bit) = present

/-- A payload field of a group that is new at the start is present in mandatory mode, unless the
latest change that dealt with its presence withdrew it directly. -/
theorem showsPresence_mandatory {group : CifGroup} (h : group.Built)
    (hcontent : group.content[index]? = some content) (operations : List CifOperation)
    (hoperands : ∀ operation ∈ operations, ∀ operand, operation.operand? = some operand →
      operand.Fits) :
    let c := CifContainer.new group
    (c.after operations).modeAt index = .mandatory →
      (c.after operations).ShowsPresence index content
        (decide (latest? (·.dealing? index content) (c.history operations) ≠
          some (.direct false))) := by
  intro c hmandatory
  have hfits : c.Fits := fits_new h
  have hstanding := hfits.standing_after hcontent operations hoperands (standing_new h hcontent)
  obtain ⟨hgroup, hafter⟩ := hfits.keeps_after operations hoperands
  have hlast : (c.after operations).group.content[index]? = some content := hgroup.symm ▸ hcontent
  rw [hmandatory] at hstanding
  rw [← hstanding.mandatory, announces, (hafter.enable_eq_isSome hlast).1]
  exact ⟨rfl, hafter.bitAt_pack hlast⟩

end CifContainer

/-- When a mandatory field is present.  After any history of a new container of a structure, and of
a group, a gated field whose mode is mandatory is shown, and its enable is packed as ones, unless the
latest change that dealt with its presence withdrew it directly, by clearing it or by resetting its
enable; then it is absent, and its enable is packed as zeros. -/
theorem mandatory_present_unless_withdrawn {layout : Layout} (hlayout : layout.Built)
    (operations : List Operation)
    (hoperands : ∀ operation ∈ operations, ∀ operand, operation.operand? = some operand →
      operand.Reachable)
    {group : CifGroup} (hgroup : group.Built) (calls : List CifOperation)
    (hcalls : ∀ call ∈ calls, ∀ operand, call.operand? = some operand → operand.Reachable) :
    (∀ (index gate : Nat) (slot gateSlot : Slot) (field : Field),
      layout.slots[index]? = some slot → slot.item = .field field → slot.link = some gate →
      layout.slots[gate]? = some gateSlot →
      ((Container.new layout).after operations).modeAt index = .mandatory →
      ((Container.new layout).after operations).ShowsPresence index gateSlot
        (decide (latest? (·.dealing? index slot) ((Container.new layout).history operations) ≠
          some (.direct false)))) ∧
      ∀ (index : Nat) (content : CifContent), group.content[index]? = some content →
        ((CifContainer.new group).after calls).modeAt index = .mandatory →
        ((CifContainer.new group).after calls).ShowsPresence index content
          (decide (latest? (·.dealing? index content) ((CifContainer.new group).history calls) ≠
            some (.direct false))) := by
  constructor
  · intro index gate slot gateSlot field hslot hfield hgate hgateSlot
    exact Container.showsPresence_mandatory hlayout hslot hfield hgate hgateSlot operations
      fun operation hmem operand hoperand => (hoperands operation hmem operand hoperand).fits
  · intro index content hcontent
    exact CifContainer.showsPresence_mandatory hgroup hcontent calls
      fun call hmem operand hoperand => (hcalls call hmem operand hoperand).fits

namespace CifBlueprint.Sample

open Layout.Sample

/-- Makes the level of a report mandatory, clears it, and sets its gate. -/
def reopened : List Operation :=
  [.changeMode "level" .mandatory, .clear "level", .assign "levelGate" (.scalar (.bool true))]

/-- Makes the gain of a group mandatory, and clears it. -/
def withdrawn : List CifOperation := [.changeMode "gain" .mandatory, .clear "gain"]

/-- The level was opened again and is present, the gain was cleared and is absent, both in mandatory
mode. -/
theorem reopened_and_withdrawn :
    let report := (Container.new reportLayout).after reopened
    let group := (CifContainer.new tuned).after withdrawn
    reportLayout.Built ∧ tuned.Built ∧ report.modeAt 4 = .mandatory ∧
      report.ShowsPresence 4
        ⟨.enable { name := "levelGate", field := some "level" }, ⟨1⟩, some 4⟩ true ∧
      group.modeAt 1 = .mandatory ∧
      ∃ gain, tuned.content[1]? = some gain ∧ gain.name = "gain" ∧
        group.ShowsPresence 1 gain false := by
  intro report group
  have hreopened : ∀ operation ∈ reopened, ∀ operand, operation.operand? = some operand →
      operand.Reachable := by
    intro operation hmem operand hoperand
    simp only [reopened, List.mem_cons, List.not_mem_nil, or_false] at hmem
    rcases hmem with rfl | rfl | rfl
    all_goals cases hoperand
  have hwithdrawn : ∀ operation ∈ withdrawn, ∀ operand, operation.operand? = some operand →
      operand.Reachable := by
    intro operation hmem operand hoperand
    simp only [withdrawn, List.mem_cons, List.not_mem_nil, or_false] at hmem
    rcases hmem with rfl | rfl
    all_goals cases hoperand
  obtain ⟨hstructure, hgroup⟩ := mandatory_present_unless_withdrawn built_reportLayout reopened
    hreopened built_tuned withdrawn hwithdrawn
  have hlevel := hstructure 4 1 _ _ _ rfl rfl rfl rfl rfl
  have hgain := hgroup 1 _ rfl rfl
  exact ⟨built_reportLayout, built_tuned, rfl, hlevel, rfl, _, rfl, rfl, hgain⟩

/-- A mandatory field need not be present: clearing it is accepted, and its enable is then packed as
zero, in a structure as in a group. -/
theorem mandatory_fields_cleared :
    let report := (Container.new reportLayout).after
      [.changeMode "level" .mandatory, .clear "level"]
    let group := (CifContainer.new tuned).after withdrawn
    reportLayout.Built ∧ tuned.Built ∧
      report.modeAt 4 = .mandatory ∧ report.get? 4 = none ∧
      Bits.window report.pack 1 1 = [false] ∧
      group.modeAt 1 = .mandatory ∧ group.get? 1 = none ∧ Bits.bitAt group.pack 8 = false := by
  exact ⟨built_reportLayout, built_tuned, rfl, rfl, by decide +kernel, rfl, rfl, by decide +kernel⟩

end CifBlueprint.Sample

end RadioPacket
