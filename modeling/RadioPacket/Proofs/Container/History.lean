import RadioPacket.Proofs.Container.Footprint

/-!
# What a leaf field shows after a history

Four kinds of change decide whether a gated field is present: assigning it, clearing it, assigning
its enable and changing its mode.  Only the first decides its value.  After any history of a new
container a field is present as the latest such change left it, and then shows the value that was
assigned last, however often it was absent in between.
-/

namespace RadioPacket

/-! ## Histories -/

/-- What an operation assigns to the slot that it addresses: a value, or `none` for absent.  A
symbol stands for its value, if the slot has symbols and this one is among them. -/
def Operation.assigned? (slot : Slot) : Operation → Option (Option Value)
  | .assignAt _ value => some value
  | .assign _ value => some (some value)
  | .clear _ => some none
  | .assignSymbol _ symbol => do
      let table ← slot.table?
      let value ← table.valueOf? symbol
      return some (.scalar (.unsigned value))
  | .changeMode _ _ => none
  | .touch _ => none
  | .within _ _ => none

/-- A step of a history: an operation on a container. -/
structure Change where
  before : Container
  operation : Operation

namespace Change

variable (change : Change) (index : Nat) (slot : Slot)

def after : Container := (change.operation.run change.before).1

def accepted : Bool := (change.operation.run change.before).2.isOk

def target? : Option Nat := change.operation.target? change.before.layout

/-- The presence that an accepted change on a field decides.  A mode counts as it results from the
change, and the optional mode leaves the presence alone. -/
def decidedOnField? : Option Bool :=
  match change.operation with
  | .changeMode _ _ => (change.after.modeAt index).presence?
  | operation => (operation.assigned? slot).map Option.isSome

/-- The state that an accepted change assigns to an enable. -/
def decidedOnEnable? : Option Bool := do
  let gate ← change.before.layout.slots[← change.target?]?
  let enable ← gate.item.enable?
  let value ← change.operation.assigned? gate
  (Enable.stateOf enable.bits value).toOption

/-- The presence of the field of a slot that a change decides, on the field or on its enable. -/
def decides? : Option Bool :=
  if change.accepted = false then none
  else if change.target? = some index then change.decidedOnField? index slot
  else if change.target? = slot.link then change.decidedOnEnable?
  else none

/-- The scalar that a change gives to the field of a slot. -/
def gives? : Option Scalar :=
  if change.accepted = true ∧ change.target? = some index then
    match change.operation.assigned? slot with
    | some (some (.scalar value)) => some value
    | _ => none
  else none

end Change

namespace Container

/-- The container after some operations, some of which may be refused. -/
def after (c : Container) : List Operation → Container
  | [] => c
  | operation :: operations => (operation.run c).1.after operations

/-- The changes that some operations make one after the other. -/
def history (c : Container) : List Operation → List Change
  | [] => []
  | operation :: operations => ⟨c, operation⟩ :: (operation.run c).1.history operations

end Container

/-- The last entry of a list for which `find?` has an answer gives this answer. -/
def latest? {α β : Type} (find? : α → Option β) (entries : List α) : Option β :=
  (entries.filterMap find?).getLast?

theorem latest?_cons {α β : Type} (find? : α → Option β) (entry : α) (entries : List α) :
    latest? find? (entry :: entries) = (latest? find? entries).or (find? entry) := by
  rw [latest?, latest?, List.filterMap_cons]
  rcases find? entry with _ | answer
  · exact Option.or_none.symm
  · rw [List.getLast?_cons]
    rcases (entries.filterMap find?).getLast? with _ | last
    · rfl
    · rfl

/-! ## One field -/

/-- The container stores a value for the leaf field at an index, and the gate of the field, if there
is one, has the given state. -/
structure Container.Stores (c : Container) (layout : Layout) (index : Nat) (slot : Slot)
    (value : Scalar) (present : Bool) : Prop where
  shape : c.layout = layout
  length : c.cells.length = layout.slots.length
  cell : ∃ mode, c.cells[index]? = some (.leaf value mode)
  gate : ∀ link, slot.link = some link → c.cells[link]? = some (.enable present)

/-! ## One operation on the field or on its enable -/

namespace Operation

variable {operation : Operation} {slot : Slot} {cell : Cell}

/-- All ways of assigning have the effect of assigning. -/
theorem effect_of_assigned {value : Option Value} (h : operation.assigned? slot = some value) :
    operation.effect slot cell = slot.assign cell value := by
  unfold assigned? at h
  split at h
  · rw [effect, Option.some.inj h]
  · rw [effect, Option.some.inj h]
  · rw [effect, Option.some.inj h]
  · obtain ⟨table, htable, hrest⟩ := Option.bind_eq_some_iff.mp h
    obtain ⟨number, hnumber, hvalue⟩ := Option.bind_eq_some_iff.mp hrest
    simp only [effect, htable, hnumber]
    rw [← Option.some.inj hvalue]
  · cases h
  · cases h
  · cases h

theorem effect_assignSymbol {name symbol : String}
    (hassigned : (assignSymbol name symbol).assigned? slot = none) :
    ∃ error, (assignSymbol name symbol).effect slot cell = .refusal cell error := by
  rcases htable : slot.table? with _ | table
  · simp only [effect, htable]
    exact ⟨_, rfl⟩
  · rcases hnumber : table.valueOf? symbol with _ | number
    · simp only [effect, htable, hnumber]
      exact ⟨_, rfl⟩
    · simp [assigned?, htable, hnumber] at hassigned

theorem refused_or_changeMode {value : Scalar} (hvalue : slot.valueOf cell = .scalar value)
    (hassigned : operation.assigned? slot = none) :
    (∃ error, operation.effect slot cell = .refusal cell error) ∨
      ∃ name requested, operation = .changeMode name requested := by
  cases operation with
  | assignAt found value => cases hassigned
  | assign name value => cases hassigned
  | clear name => cases hassigned
  | assignSymbol name symbol => exact .inl (effect_assignSymbol hassigned)
  | changeMode name requested => exact .inr ⟨name, requested, rfl⟩
  | touch name =>
      left
      simp only [effect, hvalue]
      exact ⟨_, rfl⟩
  | within name operation =>
      left
      simp only [effect, Slot.change, hvalue]
      exact ⟨_, rfl⟩

theorem effect_leaf {field : Field} {type : LeafType} (hfield : slot.item = .field field)
    (htype : field.type = .leaf type) (value : Scalar) (mode : Mode) :
    (∃ error, operation.effect slot (.leaf value mode) = .refusal (.leaf value mode) error) ∨
      ∃ next nextMode presence,
        operation.effect slot (.leaf value mode) = ⟨.leaf next nextMode, presence, .ok ()⟩ ∧
        ((∃ given, operation.assigned? slot = some (some (.scalar given)) ∧
            type.coerce given = .ok next ∧ presence = some true) ∨
          (operation.assigned? slot = some none ∧ next = value ∧ presence = some false) ∨
          ((∃ name requested, operation = .changeMode name requested) ∧ next = value ∧
            presence = nextMode.presence?)) := by
  rcases hassigned : operation.assigned? slot with _ | given
  · have hvalue : slot.valueOf (.leaf value mode) = .scalar value := by
      simp only [Slot.valueOf, hfield, htype, FieldType.valueOf]
    obtain hrefused | ⟨name, requested, rfl⟩ := refused_or_changeMode hvalue hassigned
    · exact .inl hrefused
    · simp only [effect, hfield, Item.field?]
      rcases (Cell.mode? (.leaf value mode)).getD .disabled |>.request requested name with
        error | next
      · exact .inl ⟨_, rfl⟩
      · exact .inr ⟨value, next, _, rfl, .inr (.inr ⟨⟨name, requested, rfl⟩, rfl, rfl⟩)⟩
  · simp only [effect_of_assigned hassigned, Slot.assign, hfield, htype]
    by_cases heditable : field.editable = false
    · exact .inl ⟨_, if_pos heditable⟩
    · simp only [if_neg heditable]
      rcases given with _ | given | operand
      · by_cases hlink : slot.link = none
        · exact .inl ⟨_, if_pos hlink⟩
        · exact .inr ⟨value, mode, _, if_neg hlink, .inr (.inl ⟨rfl, rfl, rfl⟩)⟩
      · rcases hcoerce : type.coerce given with error | next
        · simp only [FieldType.accept, hcoerce]
          exact .inl ⟨_, rfl⟩
        · simp only [FieldType.accept, hcoerce]
          exact .inr ⟨next, mode, _, rfl, .inl ⟨given, rfl, hcoerce, rfl⟩⟩
      · exact .inl ⟨_, rfl⟩

theorem effect_enable {enable : Enable} (henable : slot.item = .enable enable) (cell : Cell) :
    (∃ error, operation.effect slot cell = .refusal cell error) ∨
      ∃ value present, operation.assigned? slot = some value ∧
        Enable.stateOf enable.bits value = .ok present ∧
        operation.effect slot cell = ⟨.enable present, none, .ok ()⟩ := by
  rcases hassigned : operation.assigned? slot with _ | value
  · have hvalue : slot.valueOf cell = .scalar (.bool cell.isSet) := by rw [Slot.valueOf, henable]
    obtain hrefused | ⟨name, requested, rfl⟩ := refused_or_changeMode hvalue hassigned
    · exact .inl hrefused
    · simp only [effect, henable, Item.field?]
      exact .inl ⟨_, rfl⟩
  · rcases hstate : Enable.stateOf enable.bits value with error | present
    · simp only [effect_of_assigned hassigned, Slot.assign, henable, hstate]
      exact .inl ⟨_, rfl⟩
    · simp only [effect_of_assigned hassigned, Slot.assign, henable, hstate]
      exact .inr ⟨value, present, rfl, hstate, rfl⟩

end Operation

/-! ## One change -/

namespace Container.Stores

variable {c : Container} {layout : Layout} {index : Nat} {slot : Slot} {value : Scalar}
  {present : Bool}

/-- A change on the field stores the new value, and a decision on presence goes to the gate. -/
theorem apply_field (h : c.Stores layout index slot value present) (hself : slot.link ≠ some index)
    {effect : Effect} {next : Scalar} {mode : Mode} (hcell : effect.cell = .leaf next mode) :
    (effect.apply c index slot.link).Stores layout index slot next
      (effect.presence.getD present) := by
  obtain ⟨old, hold⟩ := h.cell
  refine ⟨Effect.layout_apply.trans h.shape, Effect.length_apply.trans h.length, ⟨mode, ?_⟩, ?_⟩
  · rw [Effect.getElem?_apply_self hself hold, hcell]
  · intro link hlink
    exact Effect.getElem?_apply_link hlink hself (h.gate link hlink)

/-- An assignment to the enable opens or closes the gate and leaves the value. -/
theorem put_gate (h : c.Stores layout index slot value present) {gate : Nat}
    (hgate : slot.link = some gate) (hself : slot.link ≠ some index) (decided : Bool) :
    (c.put gate (.enable decided)).Stores layout index slot value decided := by
  obtain ⟨mode, hcell⟩ := h.cell
  have hne : gate ≠ index := by
    rintro rfl
    exact hself hgate
  refine ⟨h.shape, List.length_set.trans h.length, ⟨mode, ?_⟩, ?_⟩
  · rw [Container.put, List.getElem?_set_ne hne]
    exact hcell
  · intro link hlink
    obtain rfl := Option.some.inj (hgate.symm.trans hlink)
    have hlt := (List.getElem?_eq_some_iff.mp (h.gate gate hgate)).1
    rw [Container.put, List.getElem?_set_self hlt]

theorem apply_other (h : c.Stores layout index slot value present) (hmatched : layout.Matched)
    (hslot : layout.slots[index]? = some slot) {other : Nat} {found : Slot}
    (hfound : layout.slots[other]? = some found) (hne : other ≠ index)
    (hgate : slot.link ≠ some other) (effect : Effect) :
    (effect.apply c other found.link).Stores layout index slot value present := by
  have hback : found.link ≠ some index := fun hback =>
    hgate (hmatched.link_back hfound hslot hback)
  obtain ⟨mode, hcell⟩ := h.cell
  refine ⟨Effect.layout_apply.trans h.shape, Effect.length_apply.trans h.length, ⟨mode, ?_⟩, ?_⟩
  · rw [Effect.getElem?_apply_of_ne hne hback]
    exact hcell
  · intro link hlink
    have hother : other ≠ link := by
      rintro rfl
      exact hgate hlink
    have hlinks : found.link ≠ some link := fun hshared =>
      hne (hmatched.index_eq_of_link hfound hslot hshared hlink)
    rw [Effect.getElem?_apply_of_ne hother hlinks]
    exact h.gate link hlink

end Container.Stores

namespace Change

variable {change : Change} {layout : Layout} {index : Nat} {slot : Slot} {value : Scalar}
  {present : Bool}

/-- A field follows a change from one value to the next: a given value is coerced, and without one
the value stays. -/
def Follows (type : LeafType) (value : Scalar) (given : Option Scalar) (next : Scalar) : Prop :=
  match given with
  | none => next = value
  | some given => type.coerce given = .ok next

theorem of_refused (hrefused : ∃ error, change.operation.run change.before =
    (change.before, .error error)) :
    change.after = change.before ∧ change.decides? index slot = none ∧
      change.gives? index slot = none := by
  obtain ⟨error, hrun⟩ := hrefused
  have haccepted : change.accepted = false := by rw [accepted, hrun]; rfl
  refine ⟨by rw [after, hrun], by rw [decides?, if_pos haccepted], ?_⟩
  rw [gives?, haccepted]
  rfl

theorem decidedOnField?_of_assigned {assigned : Option Value}
    (hassigned : change.operation.assigned? slot = some assigned) :
    change.decidedOnField? index slot = some assigned.isSome := by
  rw [decidedOnField?]
  split
  · next name requested hchange =>
      rw [hchange] at hassigned
      cases hassigned
  · rw [hassigned]
    rfl

theorem decidedOnField?_of_changeMode {name : String} {requested : Mode}
    (hchange : change.operation = .changeMode name requested) :
    change.decidedOnField? index slot = (change.after.modeAt index).presence? := by
  rw [decidedOnField?, hchange]

theorem of_other {other : Nat} (htarget : change.target? = some other) (hne : other ≠ index)
    (hgate : slot.link ≠ some other) :
    change.decides? index slot = none ∧ change.gives? index slot = none := by
  have hindex : change.target? ≠ some index := by
    rw [htarget]
    exact fun heq => hne (Option.some.inj heq)
  have hlink : change.target? ≠ slot.link := by
    rw [htarget]
    exact hgate.symm
  exact ⟨by rw [decides?, if_neg hindex, if_neg hlink, ite_self],
    by rw [gives?, if_neg fun h => hindex h.2]⟩

theorem stores_after_field (hslot : change.before.layout.slots[index]? = some slot)
    (hself : slot.link ≠ some index) {field : Field} (hfield : slot.item = .field field)
    {type : LeafType} (htype : field.type = .leaf type)
    (h : change.before.Stores change.before.layout index slot value present)
    (htarget : change.target? = some index) :
    ∃ next, change.after.Stores change.before.layout index slot next
        ((change.decides? index slot).getD present) ∧
      Follows type value (change.gives? index slot) next := by
  obtain ⟨mode, hcell⟩ := h.cell
  have hrun := change.operation.run_eq htarget hslot hself hcell
  obtain ⟨error, heffect⟩ | ⟨next, nextMode, presence, heffect, hkind⟩ :=
    Operation.effect_leaf hfield htype value mode
  · rw [heffect, Effect.apply_refusal hcell] at hrun
    obtain ⟨hafter, hdecides, hgives⟩ := of_refused ⟨error, hrun⟩
    rw [hafter, hdecides, hgives]
    exact ⟨value, h, rfl⟩
  · rw [heffect] at hrun
    have haccepted : change.accepted = true := by
      rw [accepted, hrun]
      rfl
    have hdecides : change.decides? index slot = change.decidedOnField? index slot := by
      rw [decides?, haccepted, if_neg (by decide), if_pos htarget]
    have hgives : change.gives? index slot =
        match change.operation.assigned? slot with
        | some (some (.scalar given)) => some given
        | _ => none := by
      rw [gives?, if_pos ⟨haccepted, htarget⟩]
    have hafter : change.after =
        Effect.apply ⟨.leaf next nextMode, presence, .ok ()⟩ change.before index slot.link := by
      rw [after, hrun]
    have hmode : change.after.modeAt index = nextMode := by
      rw [hafter, Container.modeAt_eq (Effect.getElem?_apply_self hself hcell)]
      rfl
    rw [hdecides, hgives, hafter]
    refine ⟨next, ?_⟩
    rcases hkind with ⟨given, hgiven, hcoerce, rfl⟩ | ⟨hcleared, rfl, rfl⟩ |
      ⟨⟨name, requested, hchange⟩, rfl, rfl⟩
    · rw [decidedOnField?_of_assigned hgiven, hgiven]
      exact ⟨h.apply_field hself rfl, hcoerce⟩
    · rw [decidedOnField?_of_assigned hcleared, hcleared]
      exact ⟨h.apply_field hself rfl, rfl⟩
    · rw [decidedOnField?_of_changeMode hchange, hmode, hchange]
      exact ⟨h.apply_field hself rfl, rfl⟩

theorem stores_after_enable (hbuilt : change.before.layout.Built)
    (hslot : change.before.layout.slots[index]? = some slot) {field : Field}
    (hfield : slot.item = .field field)
    (h : change.before.Stores change.before.layout index slot value present) {gate : Nat}
    (hgate : slot.link = some gate) (htarget : change.target? = some gate) :
    change.after.Stores change.before.layout index slot value
        ((change.decides? index slot).getD present) ∧
      change.gives? index slot = none := by
  have hself := hbuilt.linked.matched.link_ne_self hslot
  have hindex : change.target? ≠ some index := by
    rw [htarget, ← hgate]
    exact hself
  have hgives : change.gives? index slot = none := by
    rw [gives?, if_neg fun hboth => hindex hboth.2]
  refine ⟨?_, hgives⟩
  obtain ⟨found, enable, hfound, henable⟩ :=
    hbuilt.sound.isEnable_of_link (List.mem_of_getElem? hslot) hfield hgate
  have hcell := h.gate gate hgate
  have hgateself := hbuilt.linked.matched.link_ne_self hfound
  have hrun := change.operation.run_eq htarget hfound hgateself hcell
  obtain ⟨error, heffect⟩ | ⟨assigned, decided, hassigned, hstate, heffect⟩ :=
    Operation.effect_enable henable (.enable present)
  · rw [heffect, Effect.apply_refusal hcell] at hrun
    obtain ⟨hafter, hdecides, _⟩ := of_refused ⟨error, hrun⟩
    rw [hafter, hdecides]
    exact h
  · rw [heffect] at hrun
    have haccepted : change.accepted = true := by
      rw [accepted, hrun]
      rfl
    have hdecides : change.decides? index slot = some decided := by
      rw [decides?, haccepted, if_neg (by decide), if_neg hindex, if_pos (htarget.trans hgate.symm),
        decidedOnEnable?]
      simp only [htarget, hfound, henable, Item.enable?, hassigned, hstate, Option.bind_eq_bind,
        Option.bind_some, Except.toOption]
    rw [hdecides, after, hrun]
    exact h.put_gate hgate hself decided

theorem Follows.trans {type : LeafType} {value next last : Scalar} {early late : Option Scalar}
    (hearly : Follows type value early next) (hlate : Follows type next late last) :
    Follows type value (late.or early) last := by
  rcases late with _ | given
  · obtain rfl := hlate
    exact hearly
  · exact hlate

/-- One change keeps the account of a leaf field: the presence is the one that the change decides,
or else the old one, and the value follows what the change gives. -/
theorem stores_after (hbuilt : layout.Built) (hslot : layout.slots[index]? = some slot)
    {field : Field} (hfield : slot.item = .field field) {type : LeafType}
    (htype : field.type = .leaf type)
    (h : change.before.Stores layout index slot value present) :
    ∃ next, change.after.Stores layout index slot next
        ((change.decides? index slot).getD present) ∧
      Follows type value (change.gives? index slot) next := by
  obtain rfl := h.shape
  have hmatched := hbuilt.linked.matched
  have hself := hmatched.link_ne_self hslot
  obtain hrefused | ⟨other, found, htarget, hfound⟩ :=
    change.operation.refused_or_exists_slot change.before
  · obtain ⟨hafter, hdecides, hgives⟩ := of_refused hrefused
    rw [hafter, hdecides, hgives]
    exact ⟨value, h, rfl⟩
  · by_cases hindex : other = index
    · subst hindex
      obtain rfl := Option.some.inj (hslot.symm.trans hfound)
      exact stores_after_field hslot hself hfield htype h htarget
    · by_cases hgate : slot.link = some other
      · obtain ⟨hstores, hgives⟩ := stores_after_enable hbuilt hslot hfield h hgate htarget
        rw [hgives]
        exact ⟨value, hstores, rfl⟩
      · obtain ⟨hdecides, hgives⟩ := of_other htarget hindex hgate
        have hlt : other < change.before.cells.length :=
          h.length ▸ (List.getElem?_eq_some_iff.mp hfound).1
        have hrun := change.operation.run_eq htarget hfound (hmatched.link_ne_self hfound)
          (List.getElem?_eq_getElem hlt)
        rw [after, hrun, hdecides, hgives]
        exact ⟨value, h.apply_other hmatched hslot hfound hindex hgate _, rfl⟩

end Change

/-! ## All changes -/

namespace Container

variable {c : Container} {layout : Layout} {index : Nat} {slot : Slot}

theorem Fits.keeps_after (h : c.Fits) (operations : List Operation)
    (hoperands : ∀ operation ∈ operations, ∀ operand, operation.operand? = some operand →
      operand.Fits) : c.Keeps (c.after operations) := by
  induction operations generalizing c with
  | nil => exact ⟨rfl, h⟩
  | cons operation operations ih =>
      obtain ⟨hlayout, hnext⟩ := operation.keeps_run h (hoperands operation List.mem_cons_self)
      obtain ⟨hrest, hlast⟩ := ih hnext fun later hlater =>
        hoperands later (List.mem_cons_of_mem operation hlater)
      exact ⟨hrest.trans hlayout, hlast⟩

/-- After any history the gate of a leaf field is as the latest decision left it, and the value
follows what was given last. -/
theorem Stores.after (hbuilt : layout.Built) (hslot : layout.slots[index]? = some slot)
    {field : Field} (hfield : slot.item = .field field) {type : LeafType}
    (htype : field.type = .leaf type) (operations : List Operation) {value : Scalar}
    {present : Bool} (h : c.Stores layout index slot value present) :
    ∃ last, (c.after operations).Stores layout index slot last
        ((latest? (·.decides? index slot) (c.history operations)).getD present) ∧
      Change.Follows type value (latest? (·.gives? index slot) (c.history operations)) last := by
  induction operations generalizing c value present with
  | nil => exact ⟨value, h, rfl⟩
  | cons operation operations ih =>
      let change : Change := ⟨c, operation⟩
      obtain ⟨next, hnext, hfollows⟩ := change.stores_after hbuilt hslot hfield htype h
      obtain ⟨last, hlast, hrest⟩ := ih hnext
      refine ⟨last, ?_, ?_⟩
      · rw [history, latest?_cons, Option.getD_or]
        exact hlast
      · rw [history, latest?_cons]
        exact hfollows.trans hrest

/-- A field with an enable shows its value while it is present, and one without always does. -/
theorem Stores.get?_eq {value : Scalar} {present : Bool}
    (h : c.Stores layout index slot value present) (hslot : layout.slots[index]? = some slot)
    {field : Field} (hfield : slot.item = .field field) {type : LeafType}
    (htype : field.type = .leaf type) :
    c.get? index =
      if slot.link ≠ none ∧ present = false then none else some (.scalar value) := by
  obtain ⟨mode, hcell⟩ := h.cell
  have hvalue : field.type.valueOf (.leaf value mode) = .scalar value := by
    rw [htype, FieldType.valueOf]
  rw [get?_field (h.shape.symm ▸ hslot) hcell hfield, hvalue]
  rcases hlink : slot.link with _ | gate
  · rfl
  · simp only [Cell.isOpen, Cell.isSetAt, h.gate gate hlink, Cell.isSet]
    cases present with
    | false => rfl
    | true => rfl

end Container

namespace Layout.Sample

end Layout.Sample

end RadioPacket
