import RadioPacket.Proofs.Container.History
import RadioPacket.Proofs.Container.Interference

/-!
# Mandatory fields

The mode of a gated field and its presence are stored apart.  A mode that decides presence is
carried over to the enable when it is set, and nothing ties the two afterwards: to clear the field,
or to reset its enable, is accepted in every mode.  So a field whose mode is mandatory is present
unless the latest change that dealt with its presence withdrew it in this way.
-/

namespace RadioPacket

/-! ## Presence beside the mode -/

/-- How a change deals with the presence of a gated field. -/
inductive Dealing where
  /-- Directly, by its value or by its enable. -/
  | direct (present : Bool)
  /-- By a mode that decides presence. -/
  | byMode (present : Bool)
  deriving DecidableEq

def Dealing.present : Dealing → Bool
  | .direct present => present
  | .byMode present => present

/-- What one change makes of the mode and of the presence of a gated field, and how it deals with
the presence. -/
inductive Dealt : Option Dealing → Mode → Mode → Bool → Bool → Prop where
  | idle {mode : Mode} {present : Bool} : Dealt none mode mode present present
  | direct {mode : Mode} {present decided : Bool} :
      Dealt (some (.direct decided)) mode mode present decided
  | byMode {mode next : Mode} {present decided : Bool} :
      next.presence? = some decided → Dealt (some (.byMode decided)) mode next present decided
  | freed {mode : Mode} {present : Bool} : Dealt none mode .optional present present

/-- The presence is the one of the latest dealing, and no mode that is mandatory has made the field
absent. -/
structure Standing (last : Dealing) (mode : Mode) (present : Bool) : Prop where
  shown : last.present = present
  locked : mode = .mandatory → last ≠ .byMode false

theorem Standing.declared (mode : Mode) :
    Standing (.byMode (mode.presence?.getD false)) mode (mode.presence?.getD false) := by
  refine ⟨rfl, ?_⟩
  rintro rfl hlast
  cases hlast

theorem Standing.step {last : Dealing} {deal : Option Dealing} {mode next : Mode}
    {present after : Bool} (h : Standing last mode present)
    (hdealt : Dealt deal mode next present after) : Standing (deal.getD last) next after := by
  cases hdealt with
  | idle => exact h
  | direct =>
      refine ⟨rfl, ?_⟩
      rintro _ hlast
      cases hlast
  | byMode hdecided =>
      refine ⟨rfl, ?_⟩
      rintro rfl hlast
      cases hlast
      cases hdecided
  | freed =>
      refine ⟨h.shown, ?_⟩
      rintro ⟨⟩

/-- In mandatory mode a field is absent only when it was withdrawn directly. -/
theorem Standing.mandatory {last : Option Dealing} {declared present : Bool}
    (h : Standing (last.getD (.byMode declared)) .mandatory present) :
    present = decide (last ≠ some (.direct false)) := by
  have hlocked := h.locked rfl
  rcases last with _ | decided | decided
  · cases declared with
    | false => exact absurd rfl hlocked
    | true => exact h.shown.symm
  · cases decided with
    | false => exact h.shown.symm
    | true => exact h.shown.symm
  · cases decided with
    | false => exact absurd rfl hlocked
    | true => exact h.shown.symm

/-! ## One operation on the field -/

theorem Item.record?_of_leaf {field : Field} {type : LeafType} (htype : field.type = .leaf type) :
    (Item.field field).record? = none := by
  obtain ⟨name, type, mode, enabledBy, editable, bit⟩ := field
  cases htype
  rfl

theorem Slot.Holds.field_cases {slot : Slot} {cell : Cell} (h : slot.Holds cell) {field : Field}
    (hfield : slot.item = .field field) :
    (slot.item.record? = none ∧
      ∃ value mode, cell = .leaf value mode ∧ slot.valueOf cell = .scalar value) ∨
    ∃ inner mode, slot.item.record? = some inner.layout ∧ cell = .record inner.cells mode ∧
      slot.valueOf cell = .record inner := by
  cases h with
  | enable hitem => cases hfield.symm.trans hitem
  | @leaf _ found type value mode hitem htype _ =>
      refine .inl ⟨?_, value, mode, rfl, ?_⟩
      · rw [hitem, Item.record?_of_leaf htype]
      · simp only [Slot.valueOf, hitem, htype, FieldType.valueOf]
  | @record _ found inner cells mode hitem htype _ =>
      refine .inr ⟨⟨inner, cells⟩, mode, Item.record?_of_field hitem htype, rfl, ?_⟩
      simp only [Slot.valueOf, hitem, htype, FieldType.valueOf]
  | reserved hitem => cases hfield.symm.trans hitem

theorem FieldType.mode?_freshCell (mode : Mode) (type : FieldType) :
    (type.freshCell mode).mode? = some mode := by
  cases type with
  | leaf _ => rfl
  | record _ => rfl

theorem FieldType.mode?_of_accept {type : FieldType} {mode : Mode} {value : Value} {cell : Cell}
    (h : type.accept mode value = .ok cell) : cell.mode? = some mode := by
  unfold accept at h
  split at h
  · obtain ⟨normal, _, rfl⟩ := Fallible.map_eq_ok.mp h
    rfl
  · cases h
  · split at h
    · cases h
      rfl
    · cases h
  · cases h

namespace Operation

variable {operation : Operation} {slot : Slot} {cell : Cell}

/-- How an operation on a gated field deals with its presence; `mode` is the mode that results.
Entering a structure marks it present even when the change inside is refused. -/
def dealing? (slot : Slot) (accepted : Bool) (mode : Mode) : Operation → Option Dealing
  | .touch _ => slot.item.record?.map fun _ => .direct true
  | .within _ _ => slot.item.record?.map fun _ => .direct true
  | .changeMode _ _ => if accepted then mode.presence?.map .byMode else none
  | operation =>
      if accepted then (operation.assigned? slot).map fun value => .direct value.isSome else none

theorem dealing?_of_assigned {value : Option Value} (h : operation.assigned? slot = some value)
    (accepted : Bool) (mode : Mode) :
    operation.dealing? slot accepted mode =
      if accepted then some (.direct value.isSome) else none := by
  cases operation with
  | assignAt _ _ => simp only [dealing?, h, Option.map_some]
  | assign _ _ => simp only [dealing?, h, Option.map_some]
  | clear _ => simp only [dealing?, h, Option.map_some]
  | assignSymbol _ _ => simp only [dealing?, h, Option.map_some]
  | changeMode _ _ => cases h
  | touch _ => cases h
  | within _ _ => cases h

theorem dealt_assign {field : Field} (hfield : slot.item = .field field) (cell : Cell)
    (value : Option Value) (present : Bool) :
    let effect := slot.assign cell value
    Dealt (if effect.answer.isOk then some (.direct value.isSome) else none)
      (cell.mode?.getD .disabled) (effect.cell.mode?.getD .disabled) present
      (effect.presence.getD present) := by
  simp only [Slot.assign, hfield]
  split
  · exact .idle
  · rcases value with _ | value
    · simp only
      split
      · exact .idle
      · exact .direct
    · rcases haccept : field.type.accept (cell.mode?.getD .disabled) value with error | next
      · simp only [haccept]
        exact .idle
      · simp only [haccept, FieldType.mode?_of_accept haccept]
        exact .direct

/-- What an operation on a field does to the mode in its cell and to its presence. -/
theorem dealt_effect (operation : Operation) {field : Field} (hfield : slot.item = .field field)
    (hholds : slot.Holds cell) (present : Bool) :
    let effect := operation.effect slot cell
    let next := effect.cell.mode?.getD .disabled
    Dealt (operation.dealing? slot effect.answer.isOk next) (cell.mode?.getD .disabled) next present
      (effect.presence.getD present) := by
  rcases hassigned : operation.assigned? slot with _ | value
  · have hshown := hholds.field_cases hfield
    cases operation with
    | assignAt _ _ => cases hassigned
    | assign _ _ => cases hassigned
    | clear _ => cases hassigned
    | assignSymbol name symbol =>
        obtain ⟨error, hrefused⟩ : ∃ error,
            (assignSymbol name symbol).effect slot cell = .refusal cell error :=
          effect_assignSymbol hassigned
        simp only [hrefused, dealing?, hassigned, Option.map_none, ite_self]
        exact .idle
    | changeMode name requested =>
        simp only [effect, hfield, Item.field?]
        rcases (cell.mode?.getD .disabled).request requested name with error | next
        · exact .idle
        · have hmode : (cell.withMode next).mode? = some next := by
            rcases hshown with ⟨_, value, mode, rfl, _⟩ | ⟨inner, mode, _, rfl, _⟩
            · rfl
            · rfl
          simp only [hmode, dealing?]
          cases next with
          | disabled => exact .byMode rfl
          | optional => exact .freed
          | required => exact .byMode rfl
          | mandatory => exact .byMode rfl
    | touch name =>
        rcases hshown with ⟨hrecord, value, mode, rfl, hvalue⟩ | ⟨inner, mode, hrecord, rfl, hvalue⟩
        · simp only [effect, hvalue, dealing?, hrecord]
          exact .idle
        · simp only [effect, hvalue, dealing?, hrecord]
          exact .direct
    | within name operation =>
        rcases hshown with ⟨hrecord, value, mode, rfl, hvalue⟩ | ⟨inner, mode, hrecord, rfl, hvalue⟩
        · simp only [effect, Slot.change, hvalue, dealing?, hrecord]
          exact .idle
        · simp only [effect, Slot.change, hvalue, dealing?, hrecord]
          exact .direct
  · intro effect next
    rw [dealing?_of_assigned hassigned]
    simp only [effect, next, effect_of_assigned hassigned]
    exact dealt_assign hfield cell value present

end Operation

/-! ## One change -/

/-- How a change deals with the presence of the field of a slot, on the field or on its enable. -/
def Change.dealing? (change : Change) (index : Nat) (slot : Slot) : Option Dealing :=
  if change.target? = some index then
    change.operation.dealing? slot change.accepted (change.after.modeAt index)
  else if change.accepted = true ∧ change.target? = slot.link then
    change.decidedOnEnable?.map .direct
  else none

theorem Cell.isSetAt_eq {cells : List Cell} {index : Nat} {present : Bool}
    (h : cells[index]? = some (.enable present)) : Cell.isSetAt cells index = present := by
  rw [isSetAt, h]
  rfl

namespace Change

variable {change : Change} {index gate : Nat} {slot : Slot} {field : Field}

theorem dealt_field (h : change.before.Fits)
    (hslot : change.before.layout.slots[index]? = some slot) (hfield : slot.item = .field field)
    (hgate : slot.link = some gate) (htarget : change.target? = some index) :
    Dealt (change.dealing? index slot) (change.before.modeAt index) (change.after.modeAt index)
      (Cell.isSetAt change.before.cells gate) (Cell.isSetAt change.after.cells gate) := by
  have hself := h.built.linked.matched.link_ne_self hslot
  obtain ⟨cell, hcell, hholds⟩ := h.holds.cell hslot
  obtain ⟨gateSlot, enable, hgateSlot, henable⟩ :=
    h.built.sound.isEnable_of_link (List.mem_of_getElem? hslot) hfield hgate
  let effect := change.operation.effect slot cell
  have hrun := change.operation.run_eq htarget hslot hself hcell
  have hmode : (effect.apply change.before index slot.link).modeAt index =
      effect.cell.mode?.getD .disabled :=
    Container.modeAt_eq (Effect.getElem?_apply_self hself hcell)
  have hstate : (effect.apply change.before index slot.link).cells[gate]? =
      some (.enable (effect.presence.getD (Cell.isSetAt change.before.cells gate))) :=
    Effect.getElem?_apply_link hgate hself (h.enable_cell hgateSlot henable)
  rw [dealing?, if_pos htarget, accepted, after, hrun, Container.modeAt_eq hcell, hmode,
    Cell.isSetAt_eq hstate]
  exact change.operation.dealt_effect hfield hholds _

theorem dealt_enable (h : change.before.Fits)
    (hslot : change.before.layout.slots[index]? = some slot) (hfield : slot.item = .field field)
    (hgate : slot.link = some gate) (htarget : change.target? = some gate) :
    Dealt (change.dealing? index slot) (change.before.modeAt index) (change.after.modeAt index)
      (Cell.isSetAt change.before.cells gate) (Cell.isSetAt change.after.cells gate) := by
  have hmatched := h.built.linked.matched
  have hne : gate ≠ index := by
    rintro rfl
    exact hmatched.link_ne_self hslot hgate
  have hindex : change.target? ≠ some index := by
    rw [htarget]
    exact fun hsame => hne (Option.some.inj hsame)
  obtain ⟨found, enable, hfound, henable⟩ :=
    h.built.sound.isEnable_of_link (List.mem_of_getElem? hslot) hfield hgate
  have hcell := h.enable_cell hfound henable
  have hrun := change.operation.run_eq htarget hfound (hmatched.link_ne_self hfound) hcell
  rw [dealing?, if_neg hindex, htarget, hgate]
  obtain ⟨error, heffect⟩ | ⟨assigned, decided, hassigned, hstate, heffect⟩ :=
    Operation.effect_enable henable (.enable (Cell.isSetAt change.before.cells gate))
  · rw [heffect, Effect.apply_refusal hcell] at hrun
    have haccepted : change.accepted = false := by rw [accepted, hrun]; rfl
    rw [haccepted, after, hrun, if_neg fun hboth => Bool.false_ne_true hboth.1]
    exact .idle
  · rw [heffect] at hrun
    have haccepted : change.accepted = true := by rw [accepted, hrun]; rfl
    have hdecided : change.decidedOnEnable? = some decided := by
      rw [decidedOnEnable?]
      simp only [htarget, hfound, henable, Item.enable?, hassigned, hstate, Option.bind_eq_bind,
        Option.bind_some, Except.toOption]
    have hlt := (List.getElem?_eq_some_iff.mp hcell).1
    have hmode : change.after.modeAt index = change.before.modeAt index := by
      rw [after, hrun, Container.modeAt, Container.modeAt]
      exact congrArg (fun cell => (cell.bind Cell.mode?).getD .disabled)
        (List.getElem?_set_ne hne)
    have hset : Cell.isSetAt change.after.cells gate = decided := by
      rw [after, hrun]
      exact Cell.isSetAt_eq (List.getElem?_set_self hlt)
    rw [haccepted, hdecided, hmode, hset, if_pos ⟨rfl, rfl⟩]
    exact .direct

theorem dealt_other (h : change.before.Fits)
    (hslot : change.before.layout.slots[index]? = some slot) (hfield : slot.item = .field field)
    (hgate : slot.link = some gate) (hindex : change.target? ≠ some index)
    (hlink : change.target? ≠ some gate) :
    Dealt (change.dealing? index slot) (change.before.modeAt index) (change.after.modeAt index)
      (Cell.isSetAt change.before.cells gate) (Cell.isSetAt change.after.cells gate) := by
  have hmatched := h.built.linked.matched
  have hcells : change.after.cells[index]? = change.before.cells[index]? ∧
      change.after.cells[gate]? = change.before.cells[gate]? := by
    obtain ⟨error, hrefused⟩ | ⟨other, found, htarget, hfound⟩ :=
      change.operation.refused_or_exists_slot change.before
    · rw [after, hrefused]
      exact ⟨rfl, rfl⟩
    · have hother : index ≠ other := by
        rintro rfl
        exact hindex htarget
      have hothergate : other ≠ gate := by
        rintro rfl
        exact hlink htarget
      have hshared : found.link ≠ some gate := fun hshared =>
        hother (hmatched.index_eq_of_link hslot hfound hgate hshared)
      obtain ⟨old, hold, _⟩ := h.holds.cell hfound
      rw [after, change.operation.run_eq htarget hfound (hmatched.link_ne_self hfound) hold]
      exact ⟨Effect.getElem?_apply_of_field hmatched hfound Operation.field_of_presence hslot
        hfield hother, Effect.getElem?_apply_of_ne hothergate hshared⟩
  rw [dealing?, if_neg hindex, if_neg fun hboth => hlink (hboth.2.trans hgate), Container.modeAt,
    Container.modeAt, Cell.isSetAt, Cell.isSetAt, hcells.1, hcells.2]
  exact .idle

/-- What a change does to the mode and to the enable of a gated field. -/
theorem dealt (h : change.before.Fits) (hslot : change.before.layout.slots[index]? = some slot)
    (hfield : slot.item = .field field) (hgate : slot.link = some gate) :
    Dealt (change.dealing? index slot) (change.before.modeAt index) (change.after.modeAt index)
      (Cell.isSetAt change.before.cells gate) (Cell.isSetAt change.after.cells gate) := by
  by_cases hindex : change.target? = some index
  · exact dealt_field h hslot hfield hgate hindex
  · by_cases hlink : change.target? = some gate
    · exact dealt_enable h hslot hfield hgate hlink
    · exact dealt_other h hslot hfield hgate hindex hlink

end Change

/-! ## All changes -/

namespace Container

variable {c : Container} {index gate : Nat} {slot : Slot} {field : Field}

/-- After any history the mode and the enable of a gated field are as the latest dealing left
them. -/
theorem Fits.standing_after (h : c.Fits) (hslot : c.layout.slots[index]? = some slot)
    (hfield : slot.item = .field field) (hgate : slot.link = some gate)
    (operations : List Operation)
    (hoperands : ∀ operation ∈ operations, ∀ operand, operation.operand? = some operand →
      operand.Fits)
    {last : Dealing} (hlast : Standing last (c.modeAt index) (Cell.isSetAt c.cells gate)) :
    Standing ((latest? (·.dealing? index slot) (c.history operations)).getD last)
      ((c.after operations).modeAt index) (Cell.isSetAt (c.after operations).cells gate) := by
  induction operations generalizing c last with
  | nil => exact hlast
  | cons operation operations ih =>
      let change : Change := ⟨c, operation⟩
      have hdealt : Dealt (change.dealing? index slot) _ _ _ _ := change.dealt h hslot hfield hgate
      obtain ⟨hlayout, hnext⟩ := operation.keeps_run h (hoperands operation List.mem_cons_self)
      rw [history, latest?_cons, Option.getD_or]
      exact ih hnext (hlayout.symm ▸ hslot)
        (fun later hlater => hoperands later (List.mem_cons_of_mem _ hlater)) (hlast.step hdealt)

theorem standing_new {layout : Layout} (h : layout.Built)
    (hslot : layout.slots[index]? = some slot) (hfield : slot.item = .field field)
    (hgate : slot.link = some gate) :
    Standing (.byMode (field.mode.presence?.getD false)) ((Container.new layout).modeAt index)
      (Cell.isSetAt (Container.new layout).cells gate) := by
  obtain ⟨gateSlot, enable, hgateSlot, henable⟩ :=
    h.sound.isEnable_of_link (List.mem_of_getElem? hslot) hfield hgate
  have hback := h.linked.matched.link_back hslot hgateSlot hgate
  have hstate := getElem?_new hgateSlot
  rw [Slot.freshCell_gate henable hback hslot hfield] at hstate
  have hmode : (Container.new layout).modeAt index = field.mode := by
    rw [modeAt_eq (getElem?_new hslot), Slot.freshCell, hfield]
    simp only [FieldType.mode?_freshCell, Option.getD_some]
  rw [hmode, Cell.isSetAt_eq hstate]
  exact .declared field.mode

/-- The field at an index is shown or not, and its enable, whose slot is given, is packed as ones or
as zeros. -/
structure ShowsPresence (c : Container) (index : Nat) (gate : Slot) (present : Bool) : Prop where
  shown : (c.get? index).isSome = present
  packed : Bits.window c.pack gate.position.offset gate.bits = List.replicate gate.bits present

/-- The state of the enable is what a container shows and packs for a gated field. -/
theorem Fits.showsPresence (h : c.Fits) (hslot : c.layout.slots[index]? = some slot)
    (hfield : slot.item = .field field) (hgate : slot.link = some gate) {gateSlot : Slot}
    (hgateSlot : c.layout.slots[gate]? = some gateSlot) :
    c.ShowsPresence index gateSlot (Cell.isSetAt c.cells gate) := by
  obtain ⟨cell, hcell, _⟩ := h.holds.cell hslot
  obtain ⟨found, enable, hfound, henable⟩ :=
    h.built.sound.isEnable_of_link (List.mem_of_getElem? hslot) hfield hgate
  obtain rfl := Option.some.inj (hgateSlot.symm.trans hfound)
  constructor
  · rw [get?_field hslot hcell hfield, hgate, Cell.isOpen]
    cases Cell.isSetAt c.cells gate with
    | false => rfl
    | true => rfl
  · rw [h.window_slot hgateSlot (h.enable_cell hgateSlot henable), Slot.stream, henable, Slot.bits,
      henable]
    rfl

/-- A gated field of a container that is new at the start is present in mandatory mode, unless the
latest change that dealt with its presence withdrew it directly. -/
theorem showsPresence_mandatory {layout : Layout} (h : layout.Built)
    (hslot : layout.slots[index]? = some slot) (hfield : slot.item = .field field)
    (hgate : slot.link = some gate) {gateSlot : Slot}
    (hgateSlot : layout.slots[gate]? = some gateSlot) (operations : List Operation)
    (hoperands : ∀ operation ∈ operations, ∀ operand, operation.operand? = some operand →
      operand.Fits) :
    let c := Container.new layout
    (c.after operations).modeAt index = .mandatory →
      (c.after operations).ShowsPresence index gateSlot
        (decide (latest? (·.dealing? index slot) (c.history operations) ≠ some (.direct false))) := by
  intro c hmandatory
  have hfits : c.Fits := ⟨h, h.holds_freshCells⟩
  have hstanding := hfits.standing_after hslot hfield hgate operations hoperands
    (standing_new h hslot hfield hgate)
  obtain ⟨hlayout, hafter⟩ := hfits.keeps_after operations hoperands
  rw [hmandatory] at hstanding
  rw [← hstanding.mandatory]
  exact hafter.showsPresence (hlayout.symm ▸ hslot) hfield hgate (hlayout.symm ▸ hgateSlot)

end Container

end RadioPacket
