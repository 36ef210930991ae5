import RadioPacket.Definition.Compile
import RadioPacket.Proofs.Leaf.Table

/-!
# What compiling takes from a workshop

Work in a workshop meets what was done there before in one way only: a name of an enumeration may
stand for other symbols already.  So whether the work succeeds depends on the enumerations that it
declares and on those that are held, and what it makes does not depend on the workshop at all.  This
is shown for each kind of request and carried through the recursion of the definitions.
-/

namespace RadioPacket

/-! ## Enumerations by name -/

namespace EnumTable

/-- A name stands for one enumeration. -/
def Consistent (tables : List EnumTable) : Prop :=
  ∀ a ∈ tables, ∀ b ∈ tables, a.name = b.name → a = b

variable {tables others : List EnumTable}

theorem consistent_append :
    Consistent (tables ++ others) ↔
      Consistent tables ∧ Consistent others ∧
        ∀ a ∈ tables, ∀ b ∈ others, a.name = b.name → a = b := by
  constructor
  · intro h
    refine ⟨fun a ha b hb => ?_, fun a ha b hb => ?_, fun a ha b hb => ?_⟩
    · exact h a (List.mem_append_left _ ha) b (List.mem_append_left _ hb)
    · exact h a (List.mem_append_right _ ha) b (List.mem_append_right _ hb)
    · exact h a (List.mem_append_left _ ha) b (List.mem_append_right _ hb)
  · rintro ⟨hfirst, hsecond, hcross⟩ a ha b hb hname
    rcases List.mem_append.mp ha with ha | ha
    · rcases List.mem_append.mp hb with hb | hb
      · exact hfirst a ha b hb hname
      · exact hcross a ha b hb hname
    · rcases List.mem_append.mp hb with hb | hb
      · exact (hcross b hb a ha hname.symm).symm
      · exact hsecond a ha b hb hname

theorem consistent_congr (h : ∀ table, table ∈ tables ↔ table ∈ others) :
    Consistent tables ↔ Consistent others := by
  simp only [Consistent, h]

end EnumTable

/-- The enumeration that a shape declares, if it declares one. -/
def LeafShape.enumerations : LeafShape → List EnumTable
  | .enumeration table => [table]
  | _ => []

theorem LeafShape.mem_enumerations {shape : LeafShape} {table : EnumTable} :
    table ∈ shape.enumerations ↔ shape = .enumeration table := by
  cases shape with
  | enumeration held => simp [enumerations, eq_comm]
  | boolean _ => simp [enumerations]
  | integer _ _ => simp [enumerations]
  | fixedPoint _ _ _ => simp [enumerations]
  | nonZeroSize _ => simp [enumerations]

namespace TypeTable

/-- The enumerations that a table holds. -/
def enumerations (table : TypeTable) : List EnumTable := table.types.filterMap LeafType.table?

variable {table next : TypeTable} {shape : LeafShape} {declared : EnumTable}

theorem mem_enumerations :
    declared ∈ table.enumerations ↔ ∃ type ∈ table.types, type.shape = .enumeration declared := by
  simp only [enumerations, List.mem_filterMap, LeafType.table?_eq_some]

theorem WellFormed.consistent (h : table.WellFormed) : EnumTable.Consistent table.enumerations := by
  intro a ha b hb hname
  obtain ⟨first, hfirst, ha⟩ := mem_enumerations.mp ha
  obtain ⟨second, hsecond, hb⟩ := mem_enumerations.mp hb
  exact h.named first hfirst second hsecond a b ha hb hname

/-- A shape redeclares nothing when its name stands for one enumeration, held or declared. -/
theorem WellFormed.not_redeclares_iff (h : table.WellFormed) :
    ¬ table.Redeclares shape ↔ EnumTable.Consistent (table.enumerations ++ shape.enumerations) := by
  rw [EnumTable.consistent_append]
  constructor
  · intro hnew
    refine ⟨h.consistent, ?_, ?_⟩
    · intro a ha b hb _
      rw [LeafShape.mem_enumerations] at ha hb
      exact LeafShape.enumeration.inj (ha.symm.trans hb)
    · intro held hheld declared hdeclared hname
      by_contra hne
      exact hnew ⟨declared, held, LeafShape.mem_enumerations.mp hdeclared,
        mem_enumerations.mp hheld, hname, hne⟩
  · rintro ⟨_, _, hcross⟩ ⟨declared, held, hshape, hheld, hname, hne⟩
    exact hne (hcross held (mem_enumerations.mpr hheld) declared
      (LeafShape.mem_enumerations.mpr hshape) hname)

namespace Answers

variable {answer : Except LeafError Interned}

theorem prefix_next (h : table.Answers shape answer next) : table.types <+: next.types := by
  cases h with
  | illegal _ => exact List.prefix_rfl
  | redeclared _ _ _ => exact List.prefix_rfl
  | found _ _ _ => exact List.prefix_rfl
  | added _ _ _ => exact List.prefix_append _ _

/-- A type is granted when it is the one of the shape and its name stands for one enumeration. -/
theorem grants_iff (h : table.Answers shape answer next) (htable : table.WellFormed)
    {type : LeafType} :
    (∃ interned, answer = .ok interned ∧ interned.type = type) ↔
      type.shape = shape ∧ EnumTable.Consistent (table.enumerations ++ shape.enumerations) := by
  rw [← htable.not_redeclares_iff]
  constructor
  · rintro ⟨interned, rfl, rfl⟩
    exact ⟨h.of_ok.2, (h.isOk_iff.mp ⟨_, rfl⟩).2⟩
  · rintro ⟨rfl, hnew⟩
    have hadmissible := (LeafShape.fault?_eq_none_iff _).mp type.legal
    obtain ⟨interned, rfl⟩ := h.isOk_iff.mpr ⟨hadmissible, hnew⟩
    exact ⟨interned, rfl, LeafType.eq_of_shape h.of_ok.2⟩

/-- After a granted request the table holds the enumerations that it held and the one that was
declared. -/
theorem mem_enumerations_next {interned : Interned} (h : table.Answers shape (.ok interned) next) :
    declared ∈ next.enumerations ↔ declared ∈ table.enumerations ++ shape.enumerations := by
  obtain ⟨hplace, hshape⟩ := h.of_ok
  rw [List.mem_append, mem_enumerations, mem_enumerations, LeafShape.mem_enumerations]
  constructor
  · rintro ⟨type, htype, hdeclared⟩
    rcases h.mem_next htype with hheld | ⟨granted, hgranted, rfl⟩
    · exact .inl ⟨type, hheld, hdeclared⟩
    · cases hgranted
      exact .inr (hshape.symm.trans hdeclared)
  · rintro (⟨type, hheld, hdeclared⟩ | hdeclared)
    · exact ⟨type, h.prefix_next.subset hheld, hdeclared⟩
    · exact ⟨interned.type, List.mem_of_getElem? hplace, hshape.trans hdeclared⟩

end Answers

end TypeTable

/-! ## Work that makes the same everywhere -/

namespace Build

variable {α β : Type} {work : Build α} {declared more : List EnumTable} {P : α → Prop}

/-- The outcome of work in a workshop, and the workshop that it leaves. -/
def perform (work : Build α) (workshop : Workshop) : Except LayoutError α × Workshop :=
  work.run.run workshop

theorem perform_pure (value : α) (workshop : Workshop) :
    (pure value : Build α).perform workshop = (.ok value, workshop) := rfl

theorem perform_bind (work : Build α) (next : α → Build β) (workshop : Workshop) :
    (work >>= next).perform workshop =
      match work.perform workshop with
      | (.ok value, left) => (next value).perform left
      | (.error error, left) => (.error error, left) := by
  change (match work.perform workshop with
    | (outcome, left) => (ExceptT.bindCont next outcome).run left) = _
  rcases work.perform workshop with ⟨error | value, left⟩
  · rfl
  · rfl

theorem perform_leaf (shape : LeafShape) (workshop : Workshop) :
    (leaf shape).perform workshop =
      (((workshop.types.request shape).1.map Interned.type).mapError .leaf,
        { workshop with types := (workshop.types.request shape).2 }) := by
  have hget : (get : Build Workshop).perform workshop = (.ok workshop, workshop) := rfl
  rw [leaf, perform_bind, hget]
  dsimp only
  generalize workshop.types.request shape = outcome
  rcases outcome with ⟨error | interned, types⟩
  · rfl
  · rfl

/-- The work declares the given enumerations, and makes what `P` says and nothing else.  It succeeds
wherever each name stands for one enumeration, held or declared, and the workshop then holds what it
held and what was declared. -/
structure Makes (work : Build α) (declared : List EnumTable) (P : α → Prop) : Prop where
  keeps : ∀ workshop : Workshop, workshop.types.WellFormed →
    (work.perform workshop).2.types.WellFormed ∧
      workshop.types.types <+: (work.perform workshop).2.types.types
  succeeds : ∀ workshop : Workshop, workshop.types.WellFormed → ∀ value,
    (work.perform workshop).1 = .ok value ↔
      P value ∧ EnumTable.Consistent (workshop.types.enumerations ++ declared)
  holds : ∀ workshop : Workshop, workshop.types.WellFormed → ∀ value,
    (work.perform workshop).1 = .ok value → ∀ table,
      table ∈ (work.perform workshop).2.types.enumerations ↔
        table ∈ workshop.types.enumerations ++ declared

namespace Makes

theorem congr {Q : α → Prop} (h : Makes work declared P) (hPQ : ∀ value, P value ↔ Q value) :
    Makes work declared Q := by
  obtain rfl : P = Q := funext fun value => propext (hPQ value)
  exact h

theorem of_types_eq (hP : ∀ workshop value, (work.perform workshop).1 = .ok value ↔ P value)
    (htypes : ∀ workshop, (work.perform workshop).2.types = workshop.types) :
    Makes work [] P := by
  constructor
  · intro workshop h
    rw [htypes]
    exact ⟨h, List.prefix_rfl⟩
  · intro workshop h value
    rw [hP, List.append_nil]
    exact (and_iff_left h.consistent).symm
  · intro workshop _ value _ table
    rw [htypes, List.append_nil]

theorem pure (value : α) : Makes (Pure.pure value) [] (· = value) :=
  of_types_eq (fun _ _ => by rw [perform_pure, Except.ok.injEq, eq_comm]) fun _ => rfl

theorem report (events : List Event) : Makes (Build.report events) [] fun _ => True :=
  of_types_eq (fun _ _ => iff_of_true rfl trivial) fun _ => rfl

theorem settle (outcome : Except LayoutError α) :
    Makes (Build.settle outcome) [] fun value => outcome = .ok value := by
  rcases outcome with error | value
  · exact of_types_eq (fun _ _ => Iff.rfl) fun _ => rfl
  · exact of_types_eq (fun _ _ => Iff.rfl) fun _ => rfl

theorem leaf (shape : LeafShape) :
    Makes (Build.leaf shape) shape.enumerations fun type => type.shape = shape := by
  have hok (workshop : Workshop) (type : LeafType) :
      ((Build.leaf shape).perform workshop).1 = .ok type ↔
        ∃ interned, (workshop.types.request shape).1 = .ok interned ∧ interned.type = type := by
    rw [perform_leaf]
    rcases (workshop.types.request shape).1 with error | interned
    · simp [Except.map, Except.mapError]
    · simp [Except.map, Except.mapError]
  constructor
  · intro workshop h
    have hanswers := h.answers shape
    rw [perform_leaf]
    exact ⟨hanswers.wellFormed h, hanswers.prefix_next⟩
  · intro workshop h type
    rw [hok, (h.answers shape).grants_iff h]
  · intro workshop h type hsuccess table
    obtain ⟨interned, hgranted, _⟩ := (hok workshop type).mp hsuccess
    have hanswers := h.answers shape
    rw [hgranted] at hanswers
    rw [perform_leaf]
    exact hanswers.mem_enumerations_next

/-- Work that goes on with what other work has made. -/
theorem bind {next : α → Build β} {Q : α → β → Prop} (h : Makes work declared P)
    (hnext : ∀ value, Makes (next value) more (Q value)) :
    Makes (work >>= next) (declared ++ more) fun result => ∃ value, P value ∧ Q value result := by
  constructor
  · intro workshop hworkshop
    obtain ⟨hleft, hprefix⟩ := h.keeps workshop hworkshop
    rw [perform_bind]
    revert hleft hprefix
    rcases work.perform workshop with ⟨error | value, left⟩
    · exact And.intro
    · intro hleft hprefix
      obtain ⟨hlast, hgrown⟩ := (hnext value).keeps left hleft
      exact ⟨hlast, hprefix.trans hgrown⟩
  · intro workshop hworkshop result
    have hleft := (h.keeps workshop hworkshop).1
    have hsucceeds := h.succeeds workshop hworkshop
    have hholds := h.holds workshop hworkshop
    rw [perform_bind, ← List.append_assoc]
    revert hleft hsucceeds hholds
    rcases work.perform workshop with ⟨error | value, left⟩
    · intro _ hsucceeds _
      constructor
      · rintro ⟨⟩
      · rintro ⟨⟨value, hvalue, _⟩, hconsistent⟩
        cases (hsucceeds value).mpr ⟨hvalue, (EnumTable.consistent_append.mp hconsistent).1⟩
    · intro hleft hsucceeds hholds
      obtain ⟨hvalue, hfirst⟩ := (hsucceeds value).mp rfl
      have hsame : EnumTable.Consistent (left.types.enumerations ++ more) ↔
          EnumTable.Consistent (workshop.types.enumerations ++ declared ++ more) := by
        apply EnumTable.consistent_congr
        intro table
        rw [List.mem_append, List.mem_append, hholds value rfl]
      change ((next value).perform left).1 = .ok result ↔ _
      rw [(hnext value).succeeds left hleft, hsame]
      constructor
      · rintro ⟨hresult, hconsistent⟩
        exact ⟨⟨value, hvalue, hresult⟩, hconsistent⟩
      · rintro ⟨⟨other, hother, hresult⟩, hconsistent⟩
        obtain rfl := Except.ok.inj ((hsucceeds other).mpr ⟨hother, hfirst⟩)
        exact ⟨hresult, hconsistent⟩
  · intro workshop hworkshop result
    have hleft := (h.keeps workshop hworkshop).1
    have hholds := h.holds workshop hworkshop
    rw [perform_bind]
    revert hleft hholds
    rcases work.perform workshop with ⟨error | value, left⟩
    · rintro _ _ ⟨⟩
    · intro hleft hholds hresult table
      change table ∈ ((next value).perform left).2.types.enumerations ↔ _
      rw [(hnext value).holds left hleft result hresult, List.mem_append, hholds value rfl,
        List.mem_append, List.mem_append, List.mem_append, or_assoc]

theorem mapM {f : α → Build β} {tables : α → List EnumTable}
    (h : ∀ entry, ∃ P, Makes (f entry) (tables entry) P) (entries : List α) :
    ∃ P, Makes (entries.mapM f) (entries.flatMap tables) P := by
  induction entries with
  | nil => exact ⟨_, Makes.pure []⟩
  | cons entry entries ih =>
      obtain ⟨_, hfirst⟩ := h entry
      obtain ⟨_, hrest⟩ := ih
      rw [List.mapM_cons, List.flatMap_cons, ← List.append_nil (entries.flatMap tables)]
      exact ⟨_, hfirst.bind fun _ => hrest.bind fun _ => Makes.pure _⟩

end Makes

theorem makes_layout (blueprint : Blueprint) :
    Makes (layout blueprint) [] fun made => blueprint.build = .ok made :=
  ((Makes.report _).bind fun _ => Makes.settle _).congr fun _ => by
    simp only [true_and, exists_const]

theorem makes_group (blueprint : CifBlueprint) : ∃ P, Makes (group blueprint) [] P := by
  have hrest := (Makes.report blueprint.journal).bind fun _ => Makes.settle blueprint.build
  unfold group
  split
  · exact ⟨_, (Makes.leaf LeafType.flag.shape).bind fun _ => hrest⟩
  · exact ⟨_, (Makes.pure ()).bind fun _ => hrest⟩

end Build

/-! ## Definitions -/

mutual

/-- The enumerations that a definition declares, in order. -/
def TypeDef.enumerations : TypeDef → List EnumTable
  | .leaf shape => shape.enumerations
  | .record ⟨_, items, _, _⟩ => ItemDef.enumerations items
termination_by structural definition => definition

/-- The enumerations that items declare, in order. -/
def ItemDef.enumerations : List ItemDef → List EnumTable
  | [] => []
  | .field ⟨_, kind, _, _, _, _, _⟩ :: items => kind.enumerations ++ ItemDef.enumerations items
  | _ :: items => ItemDef.enumerations items
termination_by structural items => items

end

def StructDef.enumerations (definition : StructDef) : List EnumTable :=
  ItemDef.enumerations definition.items

def CifFieldDef.enumerations : CifFieldDef → List EnumTable
  | .content _ _ kind _ => kind.enumerations
  | _ => []

def CifDef.enumerations (definition : CifDef) : List EnumTable :=
  definition.fields.flatMap CifFieldDef.enumerations

/-- The blueprint of a structure whose items compile to the given steps. -/
def StructDef.blueprint (definition : StructDef) (base : Option Layout) (steps : List Step) :
    Blueprint :=
  let start := definition.start base
  { start with
    steps
    strict := definition.strict
    dynamicSize := start.dynamicSize || definition.dynamicSize }

mutual

/-- The type that a definition stands for, whatever is held in the workshop. -/
def TypeDef.Yields : TypeDef → FieldType → Prop
  | .leaf shape, type => ∃ leaf : LeafType, leaf.shape = shape ∧ type = .leaf leaf
  | .record ⟨name, items, dynamicSize, strict⟩, type =>
      ∃ steps layout, ItemDef.Yield items steps ∧
        ({ name, steps, strict, dynamicSize } : Blueprint).build = .ok layout ∧
        type = .record layout
termination_by structural definition => definition

/-- The steps that items stand for. -/
def ItemDef.Yield : List ItemDef → List Step → Prop
  | [], steps => steps = []
  | .field ⟨name, kind, mode, enabledBy, editable, position, _⟩ :: items, steps =>
      ∃ type rest, kind.Yields type ∧ ItemDef.Yield items rest ∧
        steps = FieldDef.stepOf position
          (FieldDef.fieldOf name type mode enabledBy editable) :: rest
  | .enable enable :: items, steps =>
      ∃ rest, ItemDef.Yield items rest ∧ steps = .append (.enable enable) :: rest
  | .reserved run :: items, steps =>
      ∃ rest, ItemDef.Yield items rest ∧ steps = .append (.reserved run) :: rest
termination_by structural items => items

end

/-- The layout that a definition stands for on top of a base. -/
def StructDef.Yields (definition : StructDef) (base : Option Layout) (layout : Layout) : Prop :=
  ∃ steps, ItemDef.Yield definition.items steps ∧
    (definition.blueprint base steps).build = .ok layout

mutual

theorem TypeDef.makes (definition : TypeDef) :
    Build.Makes definition.compile definition.enumerations definition.Yields := by
  match definition with
  | .leaf shape =>
      have h := (Build.Makes.leaf shape).bind fun type => Build.Makes.pure (FieldType.leaf type)
      rw [List.append_nil] at h
      exact h
  | .record ⟨name, items, dynamicSize, strict⟩ =>
      have h := (ItemDef.makes items).bind fun steps =>
        (Build.makes_layout { name, steps, strict, dynamicSize }).bind fun layout =>
          Build.Makes.pure (FieldType.record layout)
      rw [List.append_nil, List.append_nil] at h
      exact h.congr fun type => by simp only [TypeDef.Yields, exists_and_left]
termination_by structural definition

theorem ItemDef.makes (items : List ItemDef) :
    Build.Makes (ItemDef.compileAll items) (ItemDef.enumerations items) (ItemDef.Yield items) := by
  match items with
  | [] => exact Build.Makes.pure []
  | .field ⟨name, kind, mode, enabledBy, editable, position, value⟩ :: items =>
      have h := kind.makes.bind fun type => (ItemDef.makes items).bind fun rest =>
        Build.Makes.pure (FieldDef.stepOf position
          (FieldDef.fieldOf name type mode enabledBy editable) :: rest)
      rw [List.append_nil] at h
      exact h.congr fun steps => by simp only [ItemDef.Yield, exists_and_left]
  | .enable enable :: items =>
      have h := (ItemDef.makes items).bind fun rest =>
        Build.Makes.pure (Step.append (.enable enable) :: rest)
      rw [List.append_nil] at h
      exact h
  | .reserved run :: items =>
      have h := (ItemDef.makes items).bind fun rest =>
        Build.Makes.pure (Step.append (.reserved run) :: rest)
      rw [List.append_nil] at h
      exact h
termination_by structural items

end

theorem StructDef.makes (definition : StructDef) (base : Option Layout) :
    Build.Makes (definition.compile base) definition.enumerations (definition.Yields base) := by
  have h := (ItemDef.makes definition.items).bind fun steps =>
    Build.makes_layout (definition.blueprint base steps)
  rw [List.append_nil] at h
  exact h

theorem CifFieldDef.makes (definition : CifFieldDef) :
    ∃ P, Build.Makes definition.compile definition.enumerations P := by
  cases definition with
  | content name bit kind mode =>
      have h := fun entry : FieldType → CifEntry =>
        kind.makes.bind fun type => Build.Makes.pure (entry type)
      simp only [List.append_nil] at h
      cases mode with
      | none => exact ⟨_, h fun type => .content name bit type⟩
      | some declared =>
          exact ⟨_, h fun type => { CifEntry.content name bit type with mode := declared }⟩
  | indicator name bit => exact ⟨_, Build.Makes.pure _⟩
  | reserved bit => exact ⟨_, Build.Makes.pure _⟩

theorem CifDef.makes (definition : CifDef) :
    ∃ P, Build.Makes definition.compile definition.enumerations P := by
  obtain ⟨_, hentries⟩ := Build.Makes.mapM CifFieldDef.makes definition.fields
  choose P hgroup using fun entries =>
    Build.makes_group { name := definition.name, entries }
  have h := hentries.bind hgroup
  rw [List.append_nil] at h
  exact ⟨_, h⟩

end RadioPacket
