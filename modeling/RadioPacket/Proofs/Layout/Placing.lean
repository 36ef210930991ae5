import RadioPacket.Layout.Blueprint
import RadioPacket.Proofs.Fallible

/-!
# What the steps of a blueprint do

Each step is described once: which item list it accepts, and which one it leaves.  The list lemmas
below say what the steps keep, and a whole blueprint keeps it by induction over its steps.
-/

namespace RadioPacket

namespace Item

@[simp] theorem totalBits_append (items others : List Item) :
    totalBits (items ++ others) = totalBits items + totalBits others := by
  induction items with
  | nil => simp [totalBits]
  | cons item items ih => simp only [List.cons_append, totalBits, ih, Nat.add_assoc]

@[simp] theorem totalBits_reservedRun (bits : Nat) : totalBits (reservedRun bits) = bits := by
  by_cases h : bits = 0
  · simp [reservedRun, h, totalBits]
  · simp [reservedRun, h, totalBits, Item.bits]

theorem eq_reserved_of_mem_reservedRun {bits : Nat} {item : Item}
    (h : item ∈ reservedRun bits) : ∃ run, item = .reserved run := by
  unfold reservedRun at h
  split at h
  · cases h
  · exact ⟨_, List.mem_singleton.mp h⟩

/-- Cutting finds the item whose bits cover the offset. -/
theorem cutAt?_eq_some {items : List Item} {offset : Nat} {cut : Cut}
    (h : cutAt? items offset = some cut) :
    items = cut.before ++ cut.item :: cut.after ∧
      totalBits cut.before + cut.inner = offset ∧ cut.inner < cut.item.bits := by
  induction items generalizing offset cut with
  | nil => cases h
  | cons item rest ih =>
      unfold cutAt? at h
      split at h
      · next hinside =>
          cases h
          exact ⟨rfl, by simp [totalBits], hinside⟩
      · next hbehind =>
          obtain ⟨inner, hinner, rfl⟩ := Option.map_eq_some_iff.mp h
          obtain ⟨hitems, hoffset, hcovered⟩ := ih hinner
          refine ⟨?_, ?_, hcovered⟩
          · simpa using hitems
          · simp only [totalBits]
            omega

/-- An enable is read as one number. -/
def GateFits : Item → Prop
  | .enable gate => gate.bits ≤ Enable.maxBits
  | _ => True

end Item

/-- The item that a step brings in. -/
def Step.item : Step → Item
  | .append item => item
  | .rebind _ field => .field field

namespace Blueprint

theorem placeItem_eq_ok {placed next : List Item} {item : Item} :
    placeItem placed item = .ok next ↔
      item.bits ≤ item.maxBits ∧ Item.totalBits placed + item.bits ≤ Layout.maxBits ∧
        next = placed ++ [item] := by
  unfold placeItem
  split
  · next hlimits =>
      constructor
      · intro h
        cases h
        exact ⟨hlimits.1, hlimits.2, rfl⟩
      · rintro ⟨_, _, rfl⟩
        rfl
  · next hlimits =>
      constructor
      · intro h
        cases h
      · rintro ⟨hitem, htotal, _⟩
        exact absurd ⟨hitem, htotal⟩ hlimits

/-- Rebinding replaces one reserved run by a field between what remains of the run. -/
theorem placeRebound_eq_ok {layout : String} {placed next : List Item} {position : Position}
    {field : Field} (h : placeRebound layout placed position field = .ok next) :
    ∃ before run inner after,
      placed = before ++ .reserved run :: after ∧
      Item.totalBits before + inner = position.offset ∧
      inner + field.bits ≤ run.bits ∧
      next = before ++ Item.reservedRun inner ++ [.field field] ++
        Item.reservedRun (run.bits - inner - field.bits) ++ after := by
  unfold placeRebound at h
  split at h
  · next before run inner after hcut =>
      obtain ⟨hplaced, hoffset, _⟩ := Item.cutAt?_eq_some hcut
      split at h
      · cases h
      · next hfits =>
          cases h
          exact ⟨before, run, inner, after, hplaced, hoffset, by omega, rfl⟩
  · cases h

theorem totalBits_le_of_placeStep {layout : String} {placed next : List Item} {step : Step}
    (hplaced : Item.totalBits placed ≤ Layout.maxBits)
    (h : placeStep layout placed step = .ok next) : Item.totalBits next ≤ Layout.maxBits := by
  cases step with
  | append item =>
      obtain ⟨_, htotal, rfl⟩ := placeItem_eq_ok.mp h
      simpa [Item.totalBits] using htotal
  | rebind position field =>
      obtain ⟨before, run, inner, after, rfl, _, hfits, rfl⟩ := placeRebound_eq_ok h
      have hfield : (Item.field field).bits = field.bits := rfl
      have hrun : (Item.reserved run).bits = run.bits := rfl
      simp only [Item.totalBits_append, Item.totalBits, Item.totalBits_reservedRun, hfield,
        hrun] at hplaced ⊢
      omega

/-- After a step every item is an old one, the new one or reserved. -/
theorem mem_of_placeStep {layout : String} {placed next : List Item} {step : Step}
    (h : placeStep layout placed step = .ok next) {item : Item} (hitem : item ∈ next) :
    item ∈ placed ∨ (item = step.item ∧ item.GateFits) ∨ ∃ run, item = .reserved run := by
  cases step with
  | append new =>
      obtain ⟨hwidth, _, rfl⟩ := placeItem_eq_ok.mp h
      have hgate : new.GateFits := by
        cases new with
        | field _ => trivial
        | enable _ => exact hwidth
        | reserved _ => trivial
      rcases List.mem_append.mp hitem with hold | hnew
      · exact Or.inl hold
      · obtain rfl := List.mem_singleton.mp hnew
        exact Or.inr (Or.inl ⟨rfl, hgate⟩)
  | rebind position field =>
      obtain ⟨before, run, inner, after, rfl, _, _, rfl⟩ := placeRebound_eq_ok h
      simp only [List.mem_append, List.mem_cons, List.not_mem_nil, or_false] at hitem ⊢
      rcases hitem with (((hbefore | hleft) | rfl) | hright) | hafter
      · exact Or.inl (Or.inl hbefore)
      · exact Or.inr (Or.inr (Item.eq_reserved_of_mem_reservedRun hleft))
      · exact Or.inr (Or.inl ⟨rfl, trivial⟩)
      · exact Or.inr (Or.inr (Item.eq_reserved_of_mem_reservedRun hright))
      · exact Or.inl (Or.inr (Or.inr hafter))

variable {blueprint : Blueprint} {placed : List Item}

theorem totalBits_le_of_place (h : blueprint.place = .ok placed)
    (hbase : Item.totalBits blueprint.base ≤ Layout.maxBits) :
    Item.totalBits placed ≤ Layout.maxBits := by
  apply Fallible.foldlM_invariant (P := fun items => Item.totalBits items ≤ Layout.maxBits) h hbase
  intro step _ old next hold hstep
  exact totalBits_le_of_placeStep hold hstep

/-- What holds of the base, of the items of the steps and of reserved runs holds of all items. -/
theorem forall_mem_of_place {P : Item → Prop} (h : blueprint.place = .ok placed)
    (hbase : ∀ item ∈ blueprint.base, P item)
    (hsteps : ∀ step ∈ blueprint.steps, step.item.GateFits → P step.item)
    (hreserved : ∀ run, P (.reserved run)) : ∀ item ∈ placed, P item := by
  apply Fallible.foldlM_invariant (P := fun items => ∀ item ∈ items, P item) h hbase
  intro step hmem old next hold hstep item hitem
  rcases mem_of_placeStep hstep hitem with hmem' | ⟨rfl, hgate⟩ | ⟨run, rfl⟩
  · exact hold item hmem'
  · exact hsteps step hmem hgate
  · exact hreserved run

/-! ## Places of rebindings -/

theorem position_lt_of_placeRebound {layout : String} {items next : List Item}
    {position : Position} {field : Field} (hitems : Item.totalBits items ≤ Layout.maxBits)
    (h : placeRebound layout items position field = .ok next) :
    position.offset < Layout.maxBits := by
  unfold placeRebound at h
  split at h
  · next before run inner after hcut =>
      obtain ⟨rfl, hoffset, hinner⟩ := Item.cutAt?_eq_some hcut
      rw [Item.totalBits_append, Item.totalBits] at hitems
      omega
  · cases h

theorem exists_placeStep_of_mem {layout : String} {steps : List Step} {items placed : List Item}
    (h : steps.foldlM (placeStep layout) items = .ok placed)
    (hitems : Item.totalBits items ≤ Layout.maxBits) {step : Step} (hstep : step ∈ steps) :
    ∃ old next, Item.totalBits old ≤ Layout.maxBits ∧ placeStep layout old step = .ok next := by
  induction steps generalizing items with
  | nil => cases hstep
  | cons first rest ih =>
      rw [List.foldlM_cons] at h
      obtain ⟨next, hfirst, hrest⟩ := Fallible.bind_eq_ok.mp h
      rcases List.mem_cons.mp hstep with rfl | hlater
      · exact ⟨items, next, hitems, hfirst⟩
      · exact ih hrest (totalBits_le_of_placeStep hitems hfirst) hlater

/-- No rebinding that succeeds is asked for outside a packet, so machine words hold the offsets of
all places where fields are rebound. -/
theorem offsetWord_of_place (h : blueprint.place = .ok placed)
    (hbase : Item.totalBits blueprint.base ≤ Layout.maxBits) {word bit : BitVec 64} {field : Field}
    (hstep : .rebind (.ofWordBit word.toNat bit.toNat) field ∈ blueprint.steps) :
    (Position.offsetWord word bit).toNat = (Position.ofWordBit word.toNat bit.toNat).offset := by
  obtain ⟨old, next, hold, hplace⟩ := exists_placeStep_of_mem h hbase hstep
  have hlt := position_lt_of_placeRebound hold hplace
  rw [Position.toNat_offsetWord_eq_iff]
  simp only [Position.ofWordBit, Layout.maxBits, wordBits] at hlt
  omega

end Blueprint

end RadioPacket
