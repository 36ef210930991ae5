import RadioPacket.Proofs.Definition.Compiling

/-!
# Definitions compile alike everywhere

A workshop serves many definitions that know nothing of each other.  What one of them compiles to is
the same in a new workshop and in one that has served any number of others, and nothing that was
made before is lost, also when compiling fails halfway.  The one thing that definitions share is the
meaning of the names of their enumerations.
-/

namespace RadioPacket

namespace Workshop

/-- Something that is asked of a workshop. -/
inductive Order where
  /-- A leaf type. -/
  | leaf (shape : LeafShape)
  | type (definition : TypeDef)
  | record (definition : StructDef) (base : Option Layout)
  | group (definition : CifDef)
  /-- An indicator field group whose payload types have been made elsewhere. -/
  | entries (blueprint : CifBlueprint)

/-- What an order makes of a workshop, whether it can be carried out or not. -/
def Order.leave : Order → Workshop → Workshop
  | .leaf shape, workshop => ((Build.leaf shape).perform workshop).2
  | .type definition, workshop => (definition.compile.perform workshop).2
  | .record definition base, workshop => ((definition.compile base).perform workshop).2
  | .group definition, workshop => (definition.compile.perform workshop).2
  | .entries blueprint, workshop => ((Build.group blueprint).perform workshop).2

/-- A workshop after some orders. -/
def after (orders : List Order) : Workshop :=
  orders.foldl (fun workshop order => order.leave workshop) .empty

theorem Order.wellFormed_leave (order : Order) {workshop : Workshop}
    (h : workshop.types.WellFormed) : (order.leave workshop).types.WellFormed := by
  cases order with
  | leaf shape => exact ((Build.Makes.leaf shape).keeps workshop h).1
  | type definition => exact (definition.makes.keeps workshop h).1
  | record definition base => exact ((definition.makes base).keeps workshop h).1
  | group definition =>
      obtain ⟨_, hmakes⟩ := definition.makes
      exact (hmakes.keeps workshop h).1
  | entries blueprint =>
      obtain ⟨_, hmakes⟩ := Build.makes_group blueprint
      exact (hmakes.keeps workshop h).1

theorem wellFormed_after (orders : List Order) : (after orders).types.WellFormed := by
  have hfrom : ∀ workshop : Workshop, workshop.types.WellFormed →
      (orders.foldl (fun workshop order => order.leave workshop) workshop).types.WellFormed := by
    induction orders with
    | nil => exact fun _ h => h
    | cons order orders ih => exact fun workshop h => ih _ (order.wellFormed_leave h)
  exact hfrom .empty TypeTable.wellFormed_empty

end Workshop

namespace StructDef

variable {definition : StructDef} {base : Option Layout} {orders : List Workshop.Order}
  {layout : Layout}

/-- The definition compiles to the layout, in a workshop that was asked for something before. -/
def Compiles (definition : StructDef) (base : Option Layout) (orders : List Workshop.Order)
    (layout : Layout) : Prop :=
  ((definition.compile base).perform (.after orders)).1 = .ok layout

theorem compiles_iff : definition.Compiles base orders layout ↔ definition.Yields base layout ∧
    EnumTable.Consistent
      ((Workshop.after orders).types.enumerations ++ definition.enumerations) :=
  (definition.makes base).succeeds _ (Workshop.wellFormed_after orders) layout

end StructDef

/-- Work comes to the same in a workshop as in a new one, but for the enumerations that it declares:
where the workshop holds one of the same name, it has to be the same one. -/
structure Build.Independent {α : Type} (work : Build α) (declared : List EnumTable)
    (workshop : Workshop) : Prop where
  succeeds_iff : (∃ value, (work.perform workshop).1 = .ok value) ↔
    (∃ value, (work.perform .empty).1 = .ok value) ∧
      ¬ ∃ table ∈ declared, ∃ held ∈ workshop.types.enumerations, held.name = table.name ∧
        (held.bits ≠ table.bits ∨ held.symbols ≠ table.symbols)
  same : ∀ here fresh, (work.perform workshop).1 = .ok here →
    (work.perform .empty).1 = .ok fresh → here = fresh
  /-- Every type keeps its place, also when the work fails. -/
  keeps : workshop.types.types <+: (work.perform workshop).2.types.types

/-- The names of two lists of enumerations agree when none has two meanings. -/
theorem EnumTable.agree_iff {tables others : List EnumTable} :
    (∀ a ∈ tables, ∀ b ∈ others, a.name = b.name → a = b) ↔
      ¬ ∃ b ∈ others, ∃ a ∈ tables, a.name = b.name ∧
        (a.bits ≠ b.bits ∨ a.symbols ≠ b.symbols) := by
  have hsame {a b : EnumTable} (hname : a.name = b.name) :
      a = b ↔ ¬ (a.bits ≠ b.bits ∨ a.symbols ≠ b.symbols) := by
    obtain ⟨name, bits, symbols⟩ := a
    obtain ⟨other, otherBits, otherSymbols⟩ := b
    obtain rfl : name = other := hname
    simp only [EnumTable.mk.injEq, true_and, ne_eq, not_or, not_not]
  constructor
  · rintro h ⟨b, hb, a, ha, hname, hdiffers⟩
    exact (hsame hname).mp (h a ha b hb hname) hdiffers
  · intro h a ha b hb hname
    exact (hsame hname).mpr fun hdiffers => h ⟨b, hb, a, ha, hname, hdiffers⟩

/-- Work that makes the same everywhere is independent of what a workshop was asked for. -/
theorem Build.Makes.independent {α : Type} {work : Build α} {declared : List EnumTable}
    {P : α → Prop} (h : Makes work declared P) {workshop : Workshop}
    (hworkshop : workshop.types.WellFormed) : work.Independent declared workshop := by
  have hhere := h.succeeds workshop hworkshop
  have hfresh : ∀ value, (work.perform .empty).1 = .ok value ↔
      P value ∧ EnumTable.Consistent declared := h.succeeds .empty TypeTable.wellFormed_empty
  have hsplit : EnumTable.Consistent (workshop.types.enumerations ++ declared) ↔ _ :=
    EnumTable.consistent_append
  rw [EnumTable.agree_iff, and_iff_right hworkshop.consistent] at hsplit
  constructor
  · simp only [hhere, hfresh, hsplit, exists_and_right, and_assoc]
  · intro here fresh hmade hmadeFresh
    have hboth := (hfresh here).mpr ⟨((hhere here).mp hmade).1, ((hfresh fresh).mp hmadeFresh).2⟩
    exact Except.ok.inj (hboth.symm.trans hmadeFresh)
  · exact (h.keeps workshop hworkshop).2

/-- Compiling does not depend on what was compiled before.  Whatever a workshop was asked for, in
vain or not, a structure on any base and an indicator field group compile in it exactly when they
compile in a new one and declare no enumeration whose name is held with another width or with other
symbols; they compile to the same as there; and all types that were held stay in their places. -/
theorem Workshop.compiles_as_anew (orders : List Order) :
    (∀ (definition : StructDef) (base : Option Layout),
      (definition.compile base).Independent definition.enumerations (after orders)) ∧
    ∀ definition : CifDef,
      definition.compile.Independent definition.enumerations (after orders) := by
  have hworkshop := wellFormed_after orders
  constructor
  · exact fun definition base => (definition.makes base).independent hworkshop
  · intro definition
    obtain ⟨_, hmakes⟩ := definition.makes
    exact hmakes.independent hworkshop

/-- A name that stands for one symbol cannot come to stand for another. -/
example :
    let kind (symbol : String) : LeafShape := .enumeration ⟨"kind", 1, [(symbol, 0)]⟩
    let status (symbol : String) : StructDef :=
      ⟨"status", [.field ⟨"kind", .leaf (kind symbol), none, none, true, none, none⟩], false, false⟩
    let workshop := Workshop.after [.record (status "idle") none]
    (((status "idle").compile none).perform workshop).1.isOk = true ∧
      (((status "busy").compile none).perform workshop).1.isOk = false := by
  decide

end RadioPacket
