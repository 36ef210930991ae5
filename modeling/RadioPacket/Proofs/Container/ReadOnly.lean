import RadioPacket.Proofs.Container.History
import RadioPacket.Proofs.Container.Interference

/-!
# Read-only fields

A field that is not editable refuses every assignment, so the scalar of a read-only leaf stays what
it was when the container was made.  A structure is protected less: entering it does not ask whether
its field is editable.  After any history a read-only structure is what the operations carried out
inside it have made of it, and nothing else has had an effect on it.  So a scalar is fixed for good
when its own field and all the fields around it are read-only.
-/

namespace RadioPacket

/-- The value that a container stores at an index, present or not. -/
def Container.stored? (c : Container) (index : Nat) : Option Value := do
  let slot ← c.layout.slot? index
  let cell ← c.cells[index]?
  some (slot.valueOf cell)

/-- What operations inside it make of a value: a scalar has no inside. -/
def Value.after (operations : List Operation) : Value → Value
  | .scalar value => .scalar value
  | .record inner => .record (inner.after operations)

/-- The operation that is carried out inside the field of a name. -/
def Operation.inside? (name : String) : Operation → Option Operation
  | .within entered operation => if entered = name then some operation else none
  | _ => none

/-! ## One operation -/

theorem FieldType.valueOf_withMode (type : FieldType) (cell : Cell) (mode : Mode) :
    type.valueOf (cell.withMode mode) = type.valueOf cell := by
  cases cell with
  | enable present => rfl
  | leaf value old =>
      cases type with
      | leaf type => rfl
      | record inner => rfl
  | record cells old =>
      cases type with
      | leaf type => rfl
      | record inner => rfl
  | reserved => rfl

theorem Slot.valueOf_withMode {slot : Slot} {field : Field} (hfield : slot.item = .field field)
    (cell : Cell) (mode : Mode) : slot.valueOf (cell.withMode mode) = slot.valueOf cell := by
  rw [valueOf, valueOf, hfield]
  exact field.type.valueOf_withMode cell mode

theorem Value.after_nil (value : Value) : value.after [] = value := by
  cases value with
  | scalar value => rfl
  | record inner => rfl

theorem Value.after_append (value : Value) (first second : List Operation) :
    value.after (first ++ second) = (value.after first).after second := by
  cases value with
  | scalar value => rfl
  | record inner =>
      rw [after, after, after, Value.record.injEq]
      induction first generalizing inner with
      | nil => rfl
      | cons operation first ih => exact ih _

theorem Operation.eq_within_of_inside? {name : String} {operation inner : Operation}
    (h : operation.inside? name = some inner) : operation = .within name inner := by
  cases operation with
  | within entered operation =>
      obtain ⟨rfl, hinner⟩ := Option.ite_none_right_eq_some.mp h
      cases hinner
      rfl
  | assignAt _ _ => cases h
  | assign _ _ => cases h
  | clear _ => cases h
  | assignSymbol _ _ => cases h
  | changeMode _ _ => cases h
  | touch _ => cases h

theorem Operation.operand?_inside {name : String} {operation inner : Operation}
    (h : operation.inside? name = some inner) : inner.operand? = operation.operand? := by
  rw [eq_within_of_inside? h, operand?]

namespace Operation

variable {slot : Slot} {field : Field} {cell : Cell}

theorem assign_readOnly (hfield : slot.item = .field field) (hreadOnly : field.editable = false)
    (value : Option Value) :
    slot.assign cell value = .refusal cell (.value (.readOnly field.name)) := by
  rw [Slot.assign, hfield]
  exact if_pos hreadOnly

/-- An operation on a read-only field makes of its value what is done inside it. -/
theorem valueOf_effect_readOnly (operation : Operation) (hfield : slot.item = .field field)
    (hreadOnly : field.editable = false) (hholds : slot.Holds cell)
    (hbuilt : ∀ inner, slot.item.record? = some inner → inner.Built)
    (hoperand : ∀ operand, operation.operand? = some operand → operand.Fits)
    (hname : ∀ entered inner, operation = .within entered inner → entered = field.name) :
    slot.valueOf (operation.effect slot cell).cell =
      (slot.valueOf cell).after (operation.inside? field.name).toList := by
  have hidle : slot.valueOf cell = (slot.valueOf cell).after [] := (Value.after_nil _).symm
  cases operation with
  | assignAt index value =>
      rw [effect, assign_readOnly hfield hreadOnly]
      exact hidle
  | assign name value =>
      rw [effect, assign_readOnly hfield hreadOnly]
      exact hidle
  | clear name =>
      rw [effect, assign_readOnly hfield hreadOnly]
      exact hidle
  | assignSymbol name symbol =>
      rw [effect]
      split
      · exact hidle
      · split
        · exact hidle
        · rw [assign_readOnly hfield hreadOnly]
          exact hidle
  | changeMode name requested =>
      rw [effect]
      split
      · exact hidle
      · split
        · exact hidle
        · exact (Slot.valueOf_withMode hfield cell _).trans hidle
  | touch name =>
      rw [effect]
      split
      · exact hidle
      · exact hidle
  | within name operation =>
      obtain rfl := hname name operation rfl
      rw [effect, Slot.change, inside?, if_pos rfl]
      rcases hvalue : slot.valueOf cell with value | inner
      · exact hvalue
      · obtain ⟨found, hfound, htype, hcells⟩ := hholds.of_valueOf_record hvalue
        have hinner : inner.Fits := ⟨hbuilt _ (Item.record?_of_field hfound htype), hcells⟩
        have hlayout := (operation.keeps_run hinner hoperand).1
        simp only [Slot.valueOf, hfound, htype, FieldType.valueOf]
        rw [← hlayout]
        rfl

end Operation

namespace Container

variable {c : Container} {index : Nat} {slot : Slot} {field : Field}

theorem stored?_eq (hslot : c.layout.slots[index]? = some slot) {cell : Cell}
    (hcell : c.cells[index]? = some cell) : c.stored? index = some (slot.valueOf cell) := by
  rw [stored?, Layout.slot?, hslot, hcell]
  rfl

theorem Fits.stored?_run (h : c.Fits) (hslot : c.layout.slots[index]? = some slot)
    (hfield : slot.item = .field field) (hreadOnly : field.editable = false)
    (operation : Operation)
    (hoperand : ∀ operand, operation.operand? = some operand → operand.Fits) :
    (operation.run c).1.stored? index =
      (c.stored? index).map (Value.after (operation.inside? field.name).toList) := by
  have hmatched := h.built.linked.matched
  have hself := hmatched.link_ne_self hslot
  have hnamed : slot.name? = some field.name := by rw [Slot.name?, hfield, Item.name?]
  obtain ⟨cell, hcell, hholds⟩ := h.holds.cell hslot
  have hlayout := (operation.keeps_run h hoperand).1
  rw [stored?_eq hslot hcell, Option.map_some]
  by_cases htarget : operation.target? c.layout = some index
  · have hname : ∀ entered inner, operation = .within entered inner → entered = field.name := by
      rintro entered inner rfl
      obtain ⟨found, hfound, hentered⟩ := h.built.sound.index?_eq_some.mp htarget
      obtain rfl := Option.some.inj (hslot.symm.trans hfound)
      exact Option.some.inj (hentered.symm.trans hnamed)
    have hbuilt : ∀ inner, slot.item.record? = some inner → inner.Built := fun inner hrecord =>
      h.built.sound.built_of_record? (List.mem_of_getElem? hslot) hrecord
    have hafter : (operation.run c).1.cells[index]? = some (operation.effect slot cell).cell := by
      rw [operation.run_eq htarget hslot hself hcell]
      exact Effect.getElem?_apply_self hself hcell
    rw [stored?_eq (hlayout.symm ▸ hslot) hafter]
    exact congrArg some (operation.valueOf_effect_readOnly hfield hreadOnly hholds hbuilt hoperand
      hname)
  · -- An operation that goes inside this field would address it.
    have hinside : operation.inside? field.name = none := by
      by_contra hentered
      obtain ⟨inner, hinner⟩ := Option.ne_none_iff_exists'.mp hentered
      obtain rfl := Operation.eq_within_of_inside? hinner
      exact htarget (h.built.sound.index?_eq_some.mpr ⟨slot, hslot, hnamed⟩)
    have hafter : (operation.run c).1.cells[index]? = c.cells[index]? := by
      obtain ⟨error, hrefused⟩ | ⟨other, found, hother, hfound⟩ :=
        operation.refused_or_exists_slot c
      · rw [hrefused]
      · have hne : index ≠ other := by
          rintro rfl
          exact htarget hother
        obtain ⟨old, hold, _⟩ := h.holds.cell hfound
        rw [operation.run_eq hother hfound (hmatched.link_ne_self hfound) hold]
        exact Effect.getElem?_apply_of_field hmatched hfound Operation.field_of_presence hslot
          hfield hne
    rw [stored?_eq (hlayout.symm ▸ hslot) (hafter.trans hcell), hinside, Option.toList_none,
      Value.after_nil]

/-! ## All operations -/

/-- After any history a read-only field stores what was done inside it. -/
theorem Fits.stored?_after (h : c.Fits) (hslot : c.layout.slots[index]? = some slot)
    (hfield : slot.item = .field field) (hreadOnly : field.editable = false)
    (operations : List Operation)
    (hoperands : ∀ operation ∈ operations, ∀ operand, operation.operand? = some operand →
      operand.Fits) :
    (c.after operations).stored? index =
      (c.stored? index).map (Value.after (operations.filterMap (Operation.inside? field.name))) := by
  induction operations generalizing c with
  | nil =>
      rw [after, List.filterMap_nil, funext Value.after_nil, Option.map_id']
  | cons operation operations ih =>
      have hoperand := hoperands operation List.mem_cons_self
      obtain ⟨hlayout, hnext⟩ := operation.keeps_run h hoperand
      rw [after, ih hnext (hlayout.symm ▸ hslot) fun later hlater =>
        hoperands later (List.mem_cons_of_mem _ hlater)]
      rw [h.stored?_run hslot hfield hreadOnly operation hoperand, Option.map_map]
      congr 1
      funext value
      rw [Function.comp_apply, ← Value.after_append, List.filterMap_cons]
      rcases operation.inside? field.name with _ | inner
      · rfl
      · rfl

/-- A scalar that is stored at the end of a path of indices through nested structures, where every
field on the path is read-only. -/
inductive Sealed : Container → List Nat → Scalar → Prop where
  | leaf {c : Container} {index : Nat} {slot : Slot} {field : Field} {value : Scalar} :
      c.layout.slots[index]? = some slot → slot.item = .field field → field.editable = false →
      c.stored? index = some (.scalar value) → Sealed c [index] value
  | inside {c inner : Container} {index : Nat} {slot : Slot} {field : Field} {path : List Nat}
      {value : Scalar} :
      c.layout.slots[index]? = some slot → slot.item = .field field → field.editable = false →
      c.stored? index = some (.record inner) → Sealed inner path value →
      Sealed c (index :: path) value

theorem Fits.of_stored? (h : c.Fits) (hslot : c.layout.slots[index]? = some slot)
    {inner : Container} (hstored : c.stored? index = some (.record inner)) : inner.Fits := by
  obtain ⟨cell, hcell, _⟩ := h.holds.cell hslot
  rw [stored?_eq hslot hcell] at hstored
  have hnested : c.nestedAt index = .ok inner := by
    rw [nestedAt_eq hslot hcell, Option.some.inj hstored]
  exact (h.nestedAt hnested).1

/-- What is sealed stays so, with the same scalar. -/
theorem Sealed.after {path : List Nat} {value : Scalar} (hsealed : c.Sealed path value)
    (h : c.Fits) (operations : List Operation)
    (hoperands : ∀ operation ∈ operations, ∀ operand, operation.operand? = some operand →
      operand.Fits) : (c.after operations).Sealed path value := by
  induction hsealed generalizing operations with
  | leaf hslot hfield hreadOnly hstored =>
      refine .leaf ((h.keeps_after operations hoperands).1.symm ▸ hslot) hfield hreadOnly ?_
      rw [h.stored?_after hslot hfield hreadOnly operations hoperands, hstored]
      rfl
  | @inside c inner index slot field path value hslot hfield hreadOnly hstored _ ih =>
      -- What reaches the inner structure is a history as well, and stores no other operands.
      let reaching := operations.filterMap (Operation.inside? field.name)
      have hreaching : ∀ operation ∈ reaching, ∀ operand, operation.operand? = some operand →
          operand.Fits := by
        intro operation hmem operand hoperand
        obtain ⟨outer, houter, hinside⟩ := List.mem_filterMap.mp hmem
        exact hoperands outer houter operand (Operation.operand?_inside hinside ▸ hoperand)
      have hafter : (c.after operations).stored? index = some (.record (inner.after reaching)) := by
        rw [h.stored?_after hslot hfield hreadOnly operations hoperands, hstored]
        rfl
      exact .inside ((h.keeps_after operations hoperands).1.symm ▸ hslot) hfield hreadOnly hafter
        (ih (h.of_stored? hslot hstored) reaching hreaching)

/-- What is left of read-only fields after any history of a reachable container.  Each of them
stores what the operations inside it have made of its value, so a leaf keeps its scalar and a
structure is kept unless an operation enters it.  A scalar that is read-only all the way down never
changes. -/
theorem Reachable.readOnly_after (h : c.Reachable) (operations : List Operation)
    (hoperands : ∀ operation ∈ operations, ∀ operand, operation.operand? = some operand →
      operand.Reachable) :
    (∀ (index : Nat) (slot : Slot) (field : Field), c.layout.slots[index]? = some slot →
      slot.item = .field field → field.editable = false →
      ∃ value, c.stored? index = some value ∧
        (c.after operations).stored? index =
          some (value.after (operations.filterMap (Operation.inside? field.name)))) ∧
      ∀ (path : List Nat) (value : Scalar), c.Sealed path value →
        (c.after operations).Sealed path value := by
  have hfits : ∀ operation ∈ operations, ∀ operand, operation.operand? = some operand →
      operand.Fits := fun operation hmem operand hoperand =>
    (hoperands operation hmem operand hoperand).fits
  constructor
  · intro index slot field hslot hfield hreadOnly
    obtain ⟨cell, hcell, _⟩ := h.fits.holds.cell hslot
    have hstored := stored?_eq hslot hcell
    refine ⟨slot.valueOf cell, hstored, ?_⟩
    rw [h.fits.stored?_after hslot hfield hreadOnly operations hfits, hstored, Option.map_some]
  · intro path value hsealed
    exact hsealed.after h.fits operations hfits

end Container

/-! ## A structure with read-only fields -/

namespace Layout.Sample

/-- A structure whose kind and whose pair are read-only. -/
def casing : Blueprint :=
  ((Blueprint.new "casing").field { name := "kind", type := .leaf kind, editable := false }).field
    { name := "pair", type := .record pairLayout, editable := false }

/-- The layout of `casing`. -/
def casingLayout : Layout where
  name := "casing"
  slots :=
    [⟨.field { name := "kind", type := .leaf kind, editable := false }, ⟨0⟩, none⟩,
      ⟨.field { name := "pair", type := .record pairLayout, editable := false }, ⟨3⟩, none⟩]
  bits := 14
  warnings := [.size "casing" 14]
  dynamicSize := false

theorem built_casingLayout : casingLayout.Built := by
  have hsteps : ∀ step ∈ casing.steps, ∀ inner, step.record? = some inner → inner.Built := by
    intro step hstep inner hinner
    simp only [casing, Blueprint.new, Blueprint.field, Blueprint.item, Blueprint.step,
      List.nil_append, List.cons_append, List.mem_cons, List.not_mem_nil, or_false] at hstep
    rcases hstep with rfl | rfl
    · cases hinner
    · cases hinner
      exact built_pairLayout
  exact .fresh rfl hsteps rfl

/-- Assigns the kind of a casing and the pair in it, clears the kind, and goes inside the pair. -/
def tampering : List Operation :=
  [.assign "kind" (.scalar (.unsigned 5)), .assign "pair" (.record (.new pairLayout)),
    .clear "kind", .within "pair" (.assign "kind" (.scalar (.unsigned 5)))]

/-- The kind of a casing withstands all of that, and the pair follows what was done inside it. -/
theorem casing_after_tampering :
    let c := Container.new casingLayout
    let inside := (Container.new pairLayout).after [.assign "kind" (.scalar (.unsigned 5))]
    c.Reachable ∧ c.Sealed [0] (.unsigned 1) ∧
      (c.after tampering).Sealed [0] (.unsigned 1) ∧
      (c.after tampering).stored? 1 = some (.record inside) := by
  intro c inside
  have hreachable : c.Reachable := .new built_casingLayout
  have hoperands : ∀ operation ∈ tampering, ∀ operand, operation.operand? = some operand →
      operand.Reachable := by
    intro operation hmem operand hoperand
    simp only [tampering, List.mem_cons, List.not_mem_nil, or_false] at hmem
    rcases hmem with rfl | rfl | rfl | rfl
    · cases hoperand
    · cases hoperand
      exact .new built_pairLayout
    · cases hoperand
    · cases hoperand
  have hkind : c.Sealed [0] (.unsigned 1) := .leaf rfl rfl rfl rfl
  obtain ⟨hstored, hsealed⟩ := hreachable.readOnly_after tampering hoperands
  obtain ⟨value, hvalue, hpair⟩ := hstored 1 _ _ rfl rfl rfl
  cases hvalue
  exact ⟨hreachable, hkind, hsealed _ _ hkind, hpair⟩

/-- A read-only structure is not immutable: an assignment inside it is accepted, and the structure
then stores another value than before. -/
theorem within_changes_readOnly_pair :
    let c := Container.new casingLayout
    let assign := Operation.within "pair" (.assign "kind" (.scalar (.unsigned 5)))
    casingLayout.Built ∧
      casingLayout.slots[1]? = some
        ⟨.field { name := "pair", type := .record pairLayout, editable := false }, ⟨3⟩, none⟩ ∧
      (assign.run c).2 = .ok () ∧ (c.after [assign]).stored? 1 ≠ c.stored? 1 := by
  intro c assign
  refine ⟨built_casingLayout, rfl, rfl, ?_⟩
  intro hsame
  have hrecords : some (Value.record ((Container.new pairLayout).after
      [.assign "kind" (.scalar (.unsigned 5))])) = some (.record (.new pairLayout)) := hsame
  have hinner := Value.record.inj (Option.some.inj hrecords)
  -- The two structures differ in the kind that they show.
  have hkinds : some (Value.scalar (.unsigned 5)) = some (.scalar (.unsigned 1)) :=
    congrArg (Container.get? · 0) hinner
  cases hkinds

end Layout.Sample

end RadioPacket
