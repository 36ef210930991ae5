import RadioPacket.Proofs.Container.Reachable

/-!
# Well-formed containers

What a container stores, spelled out item by item: an enable holds a truth value, reserved bits hold
zero, a leaf field holds a value that its type admits and that its own check returns unchanged, and
a structure field holds a well-formed container of the declared layout.  Every container that a
program can come by is of this kind, so the arms of the encoder that catch anything else are never
taken.
-/

namespace RadioPacket

/-! ## Values of a leaf type -/

/-- The values of a leaf type: the right variant, within the limits of the type, a declared symbol,
and never NaN. -/
inductive LeafType.Admits (type : LeafType) : Scalar → Prop where
  | boolean {bits : Nat} (value : Bool) : type.shape = .boolean bits → Admits type (.bool value)
  | signed {bits : Nat} {number : Int} : type.shape = .integer bits true →
      -2 ^ (bits - 1) ≤ number → number < 2 ^ (bits - 1) → Admits type (.signed number)
  | unsigned {bits number : Nat} : type.shape = .integer bits false → number < 2 ^ bits →
      Admits type (.unsigned number)
  | size {bits number : Nat} : type.shape = .nonZeroSize bits → 1 ≤ number → number ≤ 2 ^ bits →
      Admits type (.unsigned number)
  | fixedPoint {bits radix : Nat} {signed : Bool} {number low high : Binary64} :
      type.shape = .fixedPoint bits radix signed → type.floatRange? = some (low, high) →
      low.le number = true → number.le high = true → number.isNaN = false →
      Admits type (.float number)
  | symbol {table : EnumTable} {number : Nat} {name : String} :
      type.shape = .enumeration table → table.symbol? number = some name →
      Admits type (.unsigned number)

namespace LeafType

theorem admits_of_coerce {type : LeafType} {value result : Scalar}
    (h : type.coerce value = .ok result) : type.Admits result := by
  have hform := coerce_eq_ok h
  rcases hshape : type.shape with bits | ⟨bits, signed⟩ | ⟨bits, radix, signed⟩ | bits | table
  · simp only [hshape] at hform
    obtain ⟨value, rfl⟩ := hform
    exact .boolean value hshape
  · rcases signed with _ | _
    · simp only [hshape] at hform
      obtain ⟨number, hlt, rfl⟩ := hform
      exact .unsigned hshape hlt
    · simp only [hshape] at hform
      obtain ⟨number, hlow, hhigh, rfl⟩ := hform
      exact .signed hshape hlow (Int.lt_of_le_sub_one hhigh)
  · simp only [hshape] at hform
    obtain ⟨number, low, high, hlimits, hlow, hhigh, rfl⟩ := hform
    have hnumber : number.isNaN = false := by
      simp only [Binary64.le, Bool.and_eq_true, Bool.not_eq_true'] at hlow
      exact hlow.1.2
    exact .fixedPoint hshape hlimits hlow hhigh hnumber
  · simp only [hshape] at hform
    obtain ⟨number, hlow, hhigh, rfl⟩ := hform
    exact .size hshape hlow hhigh
  · simp only [hshape] at hform
    obtain ⟨number, hmember, rfl⟩ := hform
    obtain ⟨name, hname⟩ := Option.isSome_iff_exists.mp hmember
    exact .symbol hshape hname

/-- What a leaf field stores: a value of its type that the check of the type returns unchanged. -/
structure Storable (type : LeafType) (value : Scalar) : Prop where
  unchanged : type.coerce value = .ok value
  admitted : type.Admits value

theorem Normal.storable {type : LeafType} {value : Scalar} (h : type.Normal value) :
    type.Storable value := ⟨h, admits_of_coerce h⟩

end LeafType

/-! ## Containers -/

mutual

/-- There is one cell for each slot, and each holds what its item may hold. -/
inductive Container.WellFormed : Container → Prop where
  | items {c : Container} :
      c.cells.length = c.layout.slots.length →
      (∀ (index : Nat) (slot : Slot), c.layout.slots[index]? = some slot →
        Container.HoldsItem c index slot) →
      Container.WellFormed c

/-- The container stores for an item what the item may hold, with one mode; only a field has a mode
of its own.  What a field holds does not depend on its presence. -/
inductive Container.HoldsItem : Container → Nat → Slot → Prop where
  | enable {c : Container} {index : Nat} {slot : Slot} {enable : Enable} {present : Bool} :
      slot.item = .enable enable → c.cells[index]? = some (.enable present) →
      c.modeAt index = .disabled → c.get? index = some (.scalar (.bool present)) →
      Container.HoldsItem c index slot
  | reserved {c : Container} {index : Nat} {slot : Slot} {run : Reserved} :
      slot.item = .reserved run → c.cells[index]? = some .reserved →
      c.modeAt index = .disabled → c.get? index = some (.scalar (.unsigned 0)) →
      Container.HoldsItem c index slot
  | leaf {c : Container} {index : Nat} {slot : Slot} {field : Field} {type : LeafType}
      {value : Scalar} {mode : Mode} :
      slot.item = .field field → field.type = .leaf type →
      c.cells[index]? = some (.leaf value mode) → c.modeAt index = mode → type.Storable value →
      Container.HoldsItem c index slot
  | record {c inner : Container} {index : Nat} {slot : Slot} {field : Field} {mode : Mode} :
      slot.item = .field field → field.type = .record inner.layout →
      c.cells[index]? = some (.record inner.cells mode) → c.modeAt index = mode →
      c.nestedAt index = .ok inner →
      Container.WellFormed inner → Container.HoldsItem c index slot

end

namespace Container

variable {c : Container} {index : Nat} {slot : Slot}

theorem nestedAt_record (hslot : c.layout.slots[index]? = some slot) {field : Field}
    (hfield : slot.item = .field field) {inner : Layout} (htype : field.type = .record inner)
    {cells : List Cell} {mode : Mode} (hcell : c.cells[index]? = some (.record cells mode)) :
    c.nestedAt index = .ok ⟨inner, cells⟩ := by
  simp only [nestedAt, Layout.slot?, hslot, hcell, Slot.valueOf, hfield, htype,
    FieldType.valueOf]

theorem holdsItem_of_holds (hslot : c.layout.slots[index]? = some slot) {cell : Cell}
    (hcell : c.cells[index]? = some cell) (h : slot.Holds cell)
    (hinner : ∀ inner, slot.item.record? = some inner → ∀ cells, inner.Holds cells →
      WellFormed ⟨inner, cells⟩) : HoldsItem c index slot := by
  have hmode : c.modeAt index = cell.mode?.getD .disabled := by
    rw [modeAt, hcell, Option.bind_some]
  cases h with
  | enable henable => exact .enable henable hcell hmode (get?_enable hslot hcell henable)
  | leaf hfield htype hnormal => exact .leaf hfield htype hcell hmode hnormal.storable
  | record hfield htype hcells =>
      have hrecord := Item.record?_of_field hfield htype
      exact .record hfield htype hcell hmode (nestedAt_record hslot hfield htype hcell)
        (hinner _ hrecord _ hcells)
  | reserved hreserved =>
      have hvisible : c.isAbsent slot = false := by
        rw [isAbsent, hreserved]
        rfl
      have hzero : slot.valueOf .reserved = .scalar (.unsigned 0) := by
        rw [Slot.valueOf, hreserved]
      refine .reserved hreserved hcell hmode ?_
      rw [get?_eq hslot hcell, hvisible, hzero]
      rfl

end Container

/-- Cells that suit a built layout make a well-formed container. -/
theorem Layout.Built.wellFormed {layout : Layout} (h : layout.Built) :
    ∀ cells, layout.Holds cells → Container.WellFormed ⟨layout, cells⟩ := by
  refine h.induct ?_
  intro layout h ih cells hholds
  refine .items hholds.length_eq.symm ?_
  intro index slot hslot
  obtain ⟨cell, hcell, hsuits⟩ := hholds.cell hslot
  exact Container.holdsItem_of_holds hslot hcell hsuits (ih slot (List.mem_of_getElem? hslot))

/-- Whatever was done to a reachable container, and whether it succeeded or not, the container is
well-formed. -/
theorem Container.Reachable.wellFormed {c : Container} (h : c.Reachable) : c.WellFormed :=
  h.fits.built.wellFormed c.cells h.fits.holds

end RadioPacket
