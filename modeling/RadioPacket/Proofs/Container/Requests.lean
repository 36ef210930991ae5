import RadioPacket.Proofs.Container.Mandatory
import RadioPacket.Proofs.Container.Moded

/-!
# Requests for modes of structures

In a container of a structure an operation that is no request for the mode of a field leaves this
mode, although it may write the value and the enable of the field, and so do operations on other
fields and inside nested structures.  A granted request for a mode of present fields makes the field
present.
-/

namespace RadioPacket

/-! ## What one operation asks of a field -/

namespace Operation

/-- The mode that an operation asks for, for the field of the given name. -/
def request? (name : String) : Operation → Option Mode
  | .changeMode field requested => if field = name then some requested else none
  | _ => none

theorem request?_eq_some {name : String} {operation : Operation} {requested : Mode} :
    operation.request? name = some requested ↔ operation = .changeMode name requested := by
  constructor
  · intro hrequest
    cases operation with
    | changeMode field asked =>
        rw [request?] at hrequest
        split at hrequest
        · next hname => rw [hname, Option.some.inj hrequest]
        · cases hrequest
    | assignAt _ _ => cases hrequest
    | assign _ _ => cases hrequest
    | clear _ => cases hrequest
    | assignSymbol _ _ => cases hrequest
    | touch _ => cases hrequest
    | within _ _ => cases hrequest
  · rintro rfl
    exact if_pos rfl

variable {operation : Operation} {slot : Slot} {cell : Cell} {field : Field}

theorem effect_granted (hfield : slot.item = .field field) {name : String} {requested next : Mode}
    (hrequest : (cell.mode?.getD .disabled).request requested name = .ok next) :
    (changeMode name requested).effect slot cell =
      ⟨cell.withMode next, next.presence?, .ok ()⟩ := by
  simp only [effect, hfield, Item.field?, hrequest]

theorem mode_assign (hfield : slot.item = .field field) (cell : Cell) (value : Option Value) :
    (slot.assign cell value).cell.mode?.getD .disabled = cell.mode?.getD .disabled := by
  simp only [Slot.assign, hfield]
  split
  · rfl
  · rcases value with _ | value
    · simp only
      split
      · rfl
      · rfl
    · simp only
      rcases haccept : field.type.accept (cell.mode?.getD .disabled) value with error | next
      · rfl
      · simp only [FieldType.mode?_of_accept haccept, Option.getD_some]

/-- What an operation on a field makes of the mode in the cell. -/
theorem heeds_effect (operation : Operation) (hfield : slot.item = .field field)
    (hholds : slot.Holds cell) {name : String}
    (hnamed : ∀ asked requested, operation = .changeMode asked requested → asked = name) :
    Heeds name (operation.request? name) (operation.effect slot cell).answer
      (cell.mode?.getD .disabled) ((operation.effect slot cell).cell.mode?.getD .disabled) := by
  have hshown := hholds.field_cases hfield
  cases operation with
  | assignAt index value =>
      rw [effect, mode_assign hfield]
      exact .idle
  | assign asked value =>
      rw [effect, mode_assign hfield]
      exact .idle
  | clear asked =>
      rw [effect, mode_assign hfield]
      exact .idle
  | assignSymbol asked symbol =>
      rcases hassigned : (assignSymbol asked symbol).assigned? slot with _ | value
      · obtain ⟨error, hrefused⟩ : ∃ error,
            (assignSymbol asked symbol).effect slot cell = .refusal cell error :=
          effect_assignSymbol hassigned
        rw [hrefused]
        exact .idle
      · rw [effect_of_assigned hassigned, mode_assign hfield]
        exact .idle
  | changeMode asked requested =>
      obtain rfl := hnamed asked requested rfl
      rw [request?_eq_some.mpr rfl]
      rcases hrequest : (cell.mode?.getD .disabled).request requested asked with error | next
      · simp only [effect, hfield, Item.field?, hrequest]
        exact .refused hrequest
      · have hmode : (cell.withMode next).mode? = some next := by
          rcases hshown with ⟨_, value, mode, rfl, _⟩ | ⟨inner, mode, _, rfl, _⟩
          · rfl
          · rfl
        rw [effect_granted hfield hrequest, hmode]
        exact .granted hrequest
  | touch asked =>
      rcases hshown with ⟨_, value, mode, rfl, hvalue⟩ | ⟨inner, mode, _, rfl, hvalue⟩
      · simp only [effect, hvalue]
        exact .idle
      · simp only [effect, hvalue]
        exact .idle
  | within asked inside =>
      rcases hshown with ⟨_, value, mode, rfl, hvalue⟩ | ⟨inner, mode, _, rfl, hvalue⟩
      · simp only [effect, Slot.change, hvalue]
        exact .idle
      · simp only [effect, Slot.change, hvalue]
        exact .idle

end Operation

/-! ## Containers of structures -/

namespace Container

variable {c : Container} {name : String} {mode : Mode}

theorem mode_eq_ok : c.mode name = .ok mode ↔
    ∃ index slot field, c.layout.index? name = some index ∧
      c.layout.slots[index]? = some slot ∧ slot.item = .field field ∧ c.modeAt index = mode := by
  rw [Container.mode, Fallible.map_eq_ok]
  constructor
  · rintro ⟨index, hindex, hmode⟩
    obtain ⟨slot, field, hslot, hfield⟩ := field_of_modeIndex hindex
    refine ⟨index, slot, field, ?_, hslot, hfield, hmode⟩
    unfold modeIndex at hindex
    split at hindex
    · cases hindex
    · next found hfound =>
        split at hindex
        · cases hindex
          exact hfound
        · cases hindex
  · rintro ⟨index, slot, field, hindex, hslot, hfield, hmode⟩
    refine ⟨index, ?_, hmode⟩
    simp only [modeIndex, hindex, Layout.slot?, hslot, Option.bind_some, hfield, Item.field?]

end Container

namespace Operation

variable {c : Container} {name : String} {mode : Mode}

/-- A request is for the field of the name, so an operation that addresses another item asks nothing
of this field. -/
theorem request?_of_target_ne {operation : Operation} {index : Nat}
    (hindex : c.layout.index? name = some index)
    (htarget : operation.target? c.layout ≠ some index) : operation.request? name = none := by
  apply Option.eq_none_iff_forall_ne_some.mpr
  intro requested hrequest
  obtain rfl := request?_eq_some.mp hrequest
  exact htarget hindex

/-- What an operation makes of the mode of a field. -/
theorem heeds_run (operation : Operation) (h : c.Fits)
    (hoperand : ∀ operand, operation.operand? = some operand → operand.Fits)
    (hmode : c.mode name = .ok mode) :
    ∃ next, (operation.run c).1.mode name = .ok next ∧
      Heeds name (operation.request? name) (operation.run c).2 mode next := by
  obtain ⟨index, slot, field, hindex, hslot, hfield, rfl⟩ := Container.mode_eq_ok.mp hmode
  have hlayout := (operation.keeps_run h hoperand).1
  refine ⟨(operation.run c).1.modeAt index, ?_, ?_⟩
  · rw [Container.mode_eq_ok, hlayout]
    exact ⟨index, slot, field, hindex, hslot, hfield, rfl⟩
  · by_cases htarget : operation.target? c.layout = some index
    · have hself := h.built.linked.matched.link_ne_self hslot
      obtain ⟨cell, hcell, hholds⟩ := h.holds.cell hslot
      have hnamed : ∀ asked requested, operation = .changeMode asked requested → asked = name := by
        rintro asked requested rfl
        obtain ⟨found, hfound, hasked⟩ := h.built.sound.index?_eq_some.mp htarget
        obtain ⟨same, hsame, hname⟩ := h.built.sound.index?_eq_some.mp hindex
        obtain rfl := Option.some.inj (hfound.symm.trans hsame)
        exact Option.some.inj (hasked.symm.trans hname)
      rw [operation.run_eq htarget hslot hself hcell, Container.modeAt_eq hcell,
        Container.modeAt_eq (Effect.getElem?_apply_self hself hcell)]
      exact operation.heeds_effect hfield hholds hnamed
    · have hsame : (operation.run c).1.modeAt index = c.modeAt index := by
        obtain ⟨error, hrefused⟩ | ⟨other, found, hother, hfound⟩ :=
          operation.refused_or_exists_slot c
        · rw [hrefused]
        · have hne : index ≠ other := by
            rintro rfl
            exact htarget hother
          exact ((h.spares_run hoperand hfound hother).fields index slot field hslot hfield hne).1
      rw [hsame, request?_of_target_ne hindex htarget]
      exact .idle

theorem shows_changeMode (h : c.Fits) (hmode : c.mode name = .ok mode) {requested next : Mode}
    (hrequest : mode.request requested name = .ok next) (hpresent : next.presence? = some true) :
    ∃ value, ((changeMode name requested).run c).1.read name = .ok (some value) := by
  obtain ⟨index, slot, field, hindex, hslot, hfield, rfl⟩ := Container.mode_eq_ok.mp hmode
  have hself := h.built.linked.matched.link_ne_self hslot
  obtain ⟨cell, hcell, _⟩ := h.holds.cell hslot
  rw [Container.modeAt_eq hcell] at hrequest
  rw [(changeMode name requested).run_eq hindex hslot hself hcell, effect_granted hfield hrequest,
    hpresent]
  let effect : Effect := ⟨cell.withMode next, some true, .ok ()⟩
  have hopen : Cell.isOpen (effect.apply c index slot.link).cells slot.link = true := by
    rcases hlink : slot.link with _ | gate
    · rfl
    · obtain ⟨gateSlot, enable, hgateSlot, henable⟩ :=
        h.built.sound.isEnable_of_link (List.mem_of_getElem? hslot) hfield hlink
      rw [hlink] at hself
      exact Cell.isSetAt_eq
        (Effect.getElem?_apply_link rfl hself (h.enable_cell hgateSlot henable))
  have hafter : (effect.apply c index slot.link).layout.slots[index]? = some slot := by
    rw [Effect.layout_apply]
    exact hslot
  have hfound : (effect.apply c index slot.link).index name = .ok index :=
    Container.index_eq_ok (by rw [Effect.layout_apply]; exact hindex)
  refine ⟨field.type.valueOf effect.cell, ?_⟩
  change (effect.apply c index slot.link).read name = _
  rw [Container.read, hfound, Except.map,
    Container.get?_field hafter (Effect.getElem?_apply_self hself hcell) hfield, if_pos hopen]

end Operation

namespace Moded

/-- Containers of structures, with the operations that change them in place. -/
def structures : Moded Container Operation where
  perform := Operation.perform
  mode := Container.mode
  read := Container.read
  changeMode := .changeMode
  request? := Operation.request?

theorem next_structures {c : Container} (h : c.Fits) (operation : Operation) :
    structures.next c operation = (operation.run c).1 ∧
      structures.answer c operation = (operation.run c).2 := by
  have hending : InPlace.ending (operation.perform c) = operation.run c := by
    rw [operation.perform_eq h, InPlace.ending_outcome]
  exact ⟨congrArg Prod.fst hending, congrArg Prod.snd hending⟩

theorem sound_structures :
    structures.Sound Container.Fits fun operation =>
      ∀ operand, operation.operand? = some operand → operand.Fits where
  keeps {c operation} h hoperand := by
    rw [(next_structures h operation).1]
    exact (operation.keeps_run h hoperand).2
  heeds {c operation name mode} h hoperand hmode := by
    obtain ⟨hnext, hanswer⟩ := next_structures h operation
    rw [hnext, hanswer]
    exact operation.heeds_run h hoperand hmode
  request?_eq_some := Operation.request?_eq_some
  admits_changeMode _ _ := nofun
  still {c name requested error} h hrefused := by
    obtain ⟨hnext, hanswer⟩ := next_structures h (.changeMode name requested)
    change structures.next c (.changeMode name requested) = c
    change structures.answer c (.changeMode name requested) = _ at hrefused
    rw [hanswer] at hrefused
    rw [hnext]
    exact Operation.eq_of_settle_refused hrefused
  shows {c name mode requested next} h hmode hrequest hpresent := by
    change ∃ value, (structures.next c (.changeMode name requested)).read name = .ok (some value)
    rw [(next_structures h _).1]
    exact Operation.shows_changeMode h hmode hrequest hpresent

end Moded

end RadioPacket
