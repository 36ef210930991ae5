import Mathlib.Data.List.Dedup
import RadioPacket.Leaf.Keyed
import RadioPacket.Proofs.Leaf.Normal

/-!
# Interning

A type table never holds a type twice, and no two of its enumerations share a name.  So a place
stands for one type, and a type for one place, whatever was requested and refused before.  Looking
types up by their keys comes to the same, although the key of an enumeration is its name alone.
-/

namespace RadioPacket

/-! ## Legal parameters -/

namespace EnumTable

theorem lt_two_pow_iff {bits value : Nat} (hbits : bits ≤ Bits.maxWidth) :
    ¬ Bits.mask bits < value ↔ value < 2 ^ bits := by
  have hpos := Nat.two_pow_pos bits
  rw [Bits.mask, Nat.min_eq_left hbits]
  omega

/-- The symbols pass their check when their values fit, and no name and no value is used twice. -/
theorem symbolFault?_eq_none_iff {bits : Nat} {seen symbols : List (String × Nat)} :
    symbolFault? bits seen symbols = none ↔
      (∀ entry ∈ symbols, ¬ Bits.mask bits < entry.2) ∧
        (∀ earlier ∈ seen, ∀ entry ∈ symbols, earlier.1 ≠ entry.1 ∧ earlier.2 ≠ entry.2) ∧
        (symbols.map (·.1)).Nodup ∧ (symbols.map (·.2)).Nodup := by
  induction symbols generalizing seen with
  | nil => simp [symbolFault?]
  | cons head rest ih =>
      obtain ⟨symbol, value⟩ := head
      rw [symbolFault?]
      split
      · next hwide =>
          constructor
          · rintro ⟨⟩
          · rintro ⟨hfits, _⟩
            exact absurd hwide (hfits _ List.mem_cons_self)
      · next hfits =>
          split
          · next hseen =>
              constructor
              · rintro ⟨⟩
              · rintro ⟨_, hnew, _⟩
                obtain ⟨earlier, hearlier, hsame⟩ := List.any_eq_true.mp hseen
                obtain ⟨hname, hvalue⟩ := hnew earlier hearlier _ List.mem_cons_self
                simp only [Bool.or_eq_true, beq_iff_eq] at hsame
                rcases hsame with hsame | hsame
                · exact absurd hsame hname
                · exact absurd hsame hvalue
          · next hnew =>
              have hfresh : ∀ earlier ∈ seen, earlier.1 ≠ symbol ∧ earlier.2 ≠ value := by
                intro earlier hearlier
                have hdiffers := List.any_eq_false.mp (Bool.eq_false_iff.mpr hnew) earlier hearlier
                simpa only [Bool.or_eq_true, beq_iff_eq, not_or] using hdiffers
              have hhead : (∀ entry ∈ rest, symbol ≠ entry.1 ∧ value ≠ entry.2) ↔
                  symbol ∉ rest.map (·.1) ∧ value ∉ rest.map (·.2) := by
                simp only [List.mem_map, not_exists, not_and, ← forall_and]
                grind
              simp only [ih, List.forall_mem_cons, List.forall_mem_append, List.map_cons,
                List.nodup_cons, hhead]
              grind

end EnumTable

/-- The symbols of a table are some, they fit its width, and each is told from the others by its
name and by its value. -/
structure EnumTable.Unambiguous (table : EnumTable) : Prop where
  nonempty : table.symbols ≠ []
  fits : ∀ entry ∈ table.symbols, entry.2 < 2 ^ table.bits
  names : (table.symbols.map (·.1)).Nodup
  values : (table.symbols.map (·.2)).Nodup

theorem EnumTable.fault?_eq_none_iff {table : EnumTable} (hbits : table.bits ≤ 64) :
    table.fault? = none ↔ table.Unambiguous := by
  have hsymbols : symbolFault? table.bits [] table.symbols = none ↔ _ := symbolFault?_eq_none_iff
  simp only [lt_two_pow_iff hbits] at hsymbols
  unfold fault?
  split
  · next fault hfault =>
      rw [hfault] at hsymbols
      constructor
      · rintro ⟨⟩
      · intro h
        cases hsymbols.mpr ⟨h.fits, nofun, h.names, h.values⟩
  · next hnone =>
      obtain ⟨hfits, _, hnames, hvalues⟩ := hsymbols.mp hnone
      rw [ite_eq_right_iff]
      constructor
      · intro hempty
        refine ⟨?_, hfits, hnames, hvalues⟩
        intro hnil
        cases hempty (List.isEmpty_iff.mpr hnil)
      · intro h hnil
        exact absurd (List.isEmpty_iff.mp hnil) h.nonempty

namespace LeafShape

/-- The parameters make a leaf type. -/
def Admissible : LeafShape → Prop
  | .boolean bits => 1 ≤ bits ∧ bits ≤ 64
  | .integer bits _ => 1 ≤ bits ∧ bits ≤ 64
  | .fixedPoint bits radix _ => (1 ≤ bits ∧ bits ≤ 64) ∧ radix ≤ bits
  | .nonZeroSize bits => 1 ≤ bits ∧ bits ≤ 63
  | .enumeration table => (1 ≤ table.bits ∧ table.bits ≤ 64) ∧ table.Unambiguous

theorem Admissible.width {shape : LeafShape} (h : shape.Admissible) :
    ¬ (shape.bits = 0 ∨ shape.maxBits < shape.bits) := by
  have hrange : 1 ≤ shape.bits ∧ shape.bits ≤ shape.maxBits := by
    cases shape with
    | boolean _ => exact h
    | integer _ _ => exact h
    | fixedPoint _ _ _ => exact h.1
    | nonZeroSize _ => exact h
    | enumeration _ => exact h.1
  omega

/-- The check of a shape lets exactly the admissible ones pass. -/
theorem fault?_eq_none_iff (shape : LeafShape) : shape.fault? = none ↔ shape.Admissible := by
  unfold fault?
  split
  · next hwidth => exact ⟨nofun, fun h => absurd hwidth h.width⟩
  · next hwidth =>
      have hrange : 1 ≤ shape.bits ∧ shape.bits ≤ shape.maxBits := by omega
      cases shape with
      | boolean _ => exact iff_of_true rfl hrange
      | integer _ _ => exact iff_of_true rfl hrange
      | fixedPoint bits radix _ =>
          rw [Admissible, ite_eq_right_iff]
          refine Iff.trans ?_ (and_iff_right hrange).symm
          exact ⟨fun h => Nat.le_of_not_lt fun hlt => Option.some_ne_none _ (h hlt),
            fun hle hlt => absurd hle (Nat.not_le_of_lt hlt)⟩
      | nonZeroSize _ => exact iff_of_true rfl hrange
      | enumeration table =>
          rw [Admissible, Option.map_eq_none_iff, EnumTable.fault?_eq_none_iff hrange.2]
          exact (and_iff_right hrange).symm

end LeafShape

/-! ## One request -/

theorem LeafType.eq_of_shape {a b : LeafType} (h : a.shape = b.shape) : a = b := by
  obtain ⟨shape, legal⟩ := a
  obtain ⟨other, otherLegal⟩ := b
  obtain rfl : shape = other := h
  rfl

theorem LeafType.table?_eq_some {type : LeafType} {table : EnumTable} :
    type.table? = some table ↔ type.shape = .enumeration table := by
  obtain ⟨shape, legal⟩ := type
  cases shape with
  | enumeration held => simp [table?]
  | boolean _ => simp [table?]
  | integer _ _ => simp [table?]
  | fixedPoint _ _ _ => simp [table?]
  | nonZeroSize _ => simp [table?]

theorem LeafType.coerce_of_valueOf? {type : LeafType} {table : EnumTable}
    (htable : type.table? = some table) {symbol : String} {value : Nat}
    (hvalue : table.valueOf? symbol = some value) :
    type.coerce (.unsigned value) = .ok (.unsigned value) := by
  obtain ⟨entry, hfound, rfl⟩ := Option.map_eq_some_iff.mp hvalue
  have hmember : (table.symbol? entry.2).isSome :=
    EnumTable.isSome_symbol?_iff.mpr ⟨entry, List.mem_of_find?_eq_some hfound, rfl⟩
  rw [coerce, table?_eq_some.mp htable]
  simp [Scalar.integer?, hmember]

theorem LeafShape.check_eq_ok {shape : LeafShape} {type : LeafType} :
    shape.check = .ok type ↔ type.shape = shape := by
  unfold check
  split
  · next hlegal =>
      constructor
      · intro h
        cases h
        rfl
      · intro h
        exact congrArg Except.ok (LeafType.eq_of_shape h.symm)
  · next error hfault =>
      constructor
      · rintro ⟨⟩
      · rintro rfl
        cases type.legal.symm.trans hfault

theorem LeafShape.check_eq_error {shape : LeafShape} {error : LeafError} :
    shape.check = .error error ↔ shape.fault? = some error := by
  unfold check
  split
  · next hlegal => simp [hlegal]
  · next found hfault => simp [hfault]

namespace TypeTable

variable {table : TypeTable} {shape : LeafShape}

/-- No type is held twice, and no two enumerations share a name. -/
structure WellFormed (table : TypeTable) : Prop where
  nodup : table.types.Nodup
  named : ∀ a ∈ table.types, ∀ b ∈ table.types, ∀ (s t : EnumTable), a.shape = .enumeration s →
    b.shape = .enumeration t → s.name = t.name → s = t

/-- The table holds an enumeration of the same name with another width or with other symbols. -/
def Redeclares (table : TypeTable) (shape : LeafShape) : Prop :=
  ∃ declared held : EnumTable, shape = .enumeration declared ∧
    (∃ type ∈ table.types, type.shape = .enumeration held) ∧ held.name = declared.name ∧
      held ≠ declared

/-- What a request for a shape answers, and the table that it leaves. -/
inductive Answers (table : TypeTable) (shape : LeafShape) :
    Except LeafError Interned → TypeTable → Prop where
  | illegal {error : LeafError} : shape.fault? = some error → Answers table shape (.error error) table
  | redeclared {type : LeafType} {declared : EnumTable} :
      type.shape = shape → shape = .enumeration declared → table.Redeclares shape →
      Answers table shape (.error (.enumeration declared.name .redeclared)) table
  | found {type : LeafType} {place : Nat} :
      type.shape = shape → ¬ table.Redeclares shape → table.types[place]? = some type →
      Answers table shape (.ok ⟨place, type⟩) table
  | added {type : LeafType} :
      type.shape = shape → ¬ table.Redeclares shape → type ∉ table.types →
      Answers table shape (.ok ⟨table.size, type⟩) ⟨table.types ++ [type]⟩

theorem enumeration?_eq_some {name : String} {held : EnumTable}
    (h : table.enumeration? name = some held) :
    (∃ type ∈ table.types, type.shape = .enumeration held) ∧ held.name = name := by
  obtain ⟨type, htype, hfound⟩ := List.exists_of_findSome?_eq_some h
  split at hfound
  · next found hheld =>
      obtain ⟨hname, hsame⟩ := Option.ite_none_right_eq_some.mp hfound
      cases hsame
      exact ⟨⟨type, htype, LeafType.table?_eq_some.mp hheld⟩, hname⟩
  · cases hfound

theorem enumeration?_ne_none {type : LeafType} (htype : type ∈ table.types) {held : EnumTable}
    (hheld : type.shape = .enumeration held) : table.enumeration? held.name ≠ none := by
  intro hnone
  have hmissed := List.findSome?_eq_none_iff.mp hnone type htype
  rw [LeafType.table?_eq_some.mpr hheld] at hmissed
  simp at hmissed

theorem WellFormed.clash?_cases (h : table.WellFormed) (type : LeafType) :
    (table.clash? type = none ∧ ¬ table.Redeclares type.shape) ∨
      ∃ declared, type.shape = .enumeration declared ∧ table.Redeclares type.shape ∧
        table.clash? type = some (.enumeration declared.name .redeclared) := by
  unfold clash?
  split
  · next hnone =>
      refine .inl ⟨rfl, ?_⟩
      rintro ⟨declared, _, hshape, _⟩
      cases hnone.symm.trans (LeafType.table?_eq_some.mpr hshape)
  · next declared hdeclared =>
      have hshape := LeafType.table?_eq_some.mp hdeclared
      rcases hheld : table.enumeration? declared.name with _ | held
      · refine .inl ⟨rfl, ?_⟩
        rintro ⟨other, found, hother, ⟨enumerated, hmem, hfound⟩, hname, _⟩
        cases hshape.symm.trans hother
        exact enumeration?_ne_none hmem hfound (hname ▸ hheld)
      · obtain ⟨⟨enumerated, hmem, henumerated⟩, hname⟩ := enumeration?_eq_some hheld
        by_cases hsame : held = declared
        · refine .inl ⟨if_pos hsame, ?_⟩
          rintro ⟨other, found, hother, ⟨second, hsecond, hfound⟩, hfoundName, hne⟩
          cases hshape.symm.trans hother
          exact hne ((h.named second hsecond enumerated hmem found held hfound henumerated
            (hfoundName.trans hname.symm)).trans hsame)
        · exact .inr ⟨declared, hshape,
            ⟨declared, held, hshape, ⟨enumerated, hmem, henumerated⟩, hname, hsame⟩, if_neg hsame⟩

/-- Every request is one of the four kinds. -/
theorem WellFormed.answers (h : table.WellFormed) (shape : LeafShape) :
    table.Answers shape (table.request shape).1 (table.request shape).2 := by
  unfold request
  rcases hcheck : shape.check with error | type
  · exact .illegal (LeafShape.check_eq_error.mp hcheck)
  · obtain rfl := LeafShape.check_eq_ok.mp hcheck
    obtain ⟨hclash, hnew⟩ | ⟨declared, hshape, hredeclares, hclash⟩ := h.clash?_cases type
    · simp only [hclash, insert]
      rcases hplace : table.types.idxOf? type with _ | place
      · exact .added rfl hnew (List.idxOf?_eq_none_iff.mp hplace)
      · obtain ⟨hlt, hat, _⟩ := List.idxOf?_eq_some_iff.mp hplace
        exact .found rfl hnew (List.getElem?_eq_some_iff.mpr ⟨hlt, hat⟩)
    · simp only [hclash]
      exact .redeclared rfl hshape hredeclares

/-! ## All requests -/

/-- The table after some requests, some of which may be refused. -/
def after (table : TypeTable) (shapes : List LeafShape) : TypeTable :=
  shapes.foldl (fun table shape => (table.request shape).2) table

/-- The requests that succeed among some requests made one after the other, with their answers. -/
def granted (table : TypeTable) : List LeafShape → List (LeafShape × Interned)
  | [] => []
  | shape :: shapes =>
      match (table.request shape).1 with
      | .ok interned => (shape, interned) :: (table.request shape).2.granted shapes
      | .error _ => (table.request shape).2.granted shapes

theorem wellFormed_empty : empty.WellFormed where
  nodup := .nil
  named := nofun

namespace Answers

variable {answer : Except LeafError Interned} {next : TypeTable}

theorem wellFormed (h : table.Answers shape answer next) (htable : table.WellFormed) :
    next.WellFormed := by
  cases h with
  | illegal _ => exact htable
  | redeclared _ _ _ => exact htable
  | found _ _ _ => exact htable
  | @added type hshape hnew hfresh =>
      -- The name of an enumeration that is new stands for the same symbols, if for any.
      have hagree : ∀ a ∈ table.types, ∀ s t, a.shape = .enumeration s →
          type.shape = .enumeration t → s.name = t.name → s = t := by
        intro a ha s t hs ht hname
        by_contra hne
        exact hnew ⟨t, s, hshape ▸ ht, ⟨a, ha, hs⟩, hname, hne⟩
      constructor
      · exact htable.nodup.append (List.nodup_singleton type)
          (List.disjoint_singleton.mpr hfresh)
      · intro a ha b hb s t hs ht hname
        rcases List.mem_append.mp ha with haheld | haown
        · rcases List.mem_append.mp hb with hbheld | hbown
          · exact htable.named a haheld b hbheld s t hs ht hname
          · obtain rfl := List.mem_singleton.mp hbown
            exact hagree a haheld s t hs ht hname
        · obtain rfl := List.mem_singleton.mp haown
          rcases List.mem_append.mp hb with hbheld | hbown
          · exact (hagree b hbheld t s ht hs hname.symm).symm
          · obtain rfl := List.mem_singleton.mp hbown
            exact LeafShape.enumeration.inj (hs.symm.trans ht)

theorem getElem?_next (h : table.Answers shape answer next) {place : Nat} {type : LeafType}
    (hplace : table.types[place]? = some type) : next.types[place]? = some type := by
  cases h with
  | illegal _ => exact hplace
  | redeclared _ _ _ => exact hplace
  | found _ _ _ => exact hplace
  | added _ _ _ =>
      rw [List.getElem?_append_left (List.getElem?_eq_some_iff.mp hplace).1]
      exact hplace

theorem of_ok {interned : Interned} (h : table.Answers shape (.ok interned) next) :
    next.types[interned.place]? = some interned.type ∧ interned.type.shape = shape := by
  cases h with
  | found hshape _ hplace => exact ⟨hplace, hshape⟩
  | added hshape _ _ => exact ⟨List.getElem?_concat_length, hshape⟩

theorem of_error {error : LeafError} (h : table.Answers shape (.error error) next) :
    next = table := by
  cases h with
  | illegal _ => rfl
  | redeclared _ _ _ => rfl

/-- A request is granted when its shape is admissible and redeclares nothing. -/
theorem isOk_iff (h : table.Answers shape answer next) :
    (∃ interned, answer = .ok interned) ↔ shape.Admissible ∧ ¬ table.Redeclares shape := by
  cases h with
  | illegal hfault =>
      constructor
      · rintro ⟨_, ⟨⟩⟩
      · rintro ⟨hadmissible, _⟩
        cases (shape.fault?_eq_none_iff.mpr hadmissible).symm.trans hfault
  | redeclared _ _ hredeclares =>
      constructor
      · rintro ⟨_, ⟨⟩⟩
      · rintro ⟨_, hnew⟩
        exact absurd hredeclares hnew
  | found hshape hnew _ =>
      subst hshape
      exact iff_of_true ⟨_, rfl⟩ ⟨(LeafShape.fault?_eq_none_iff _).mp (LeafType.legal _), hnew⟩
  | added hshape hnew _ =>
      subst hshape
      exact iff_of_true ⟨_, rfl⟩ ⟨(LeafShape.fault?_eq_none_iff _).mp (LeafType.legal _), hnew⟩

theorem mem_next (h : table.Answers shape answer next) {type : LeafType}
    (htype : type ∈ next.types) :
    type ∈ table.types ∨ ∃ interned, answer = .ok interned ∧ interned.type = type := by
  cases h with
  | illegal _ => exact .inl htype
  | redeclared _ _ _ => exact .inl htype
  | found _ _ _ => exact .inl htype
  | added _ _ _ =>
      rcases List.mem_append.mp htype with htype | htype
      · exact .inl htype
      · exact .inr ⟨_, rfl, (List.mem_singleton.mp htype).symm⟩

end Answers

theorem WellFormed.after (h : table.WellFormed) (shapes : List LeafShape) :
    (table.after shapes).WellFormed := by
  induction shapes generalizing table with
  | nil => exact h
  | cons shape shapes ih => exact ih ((h.answers shape).wellFormed h)

theorem WellFormed.getElem?_after (h : table.WellFormed) (shapes : List LeafShape) {place : Nat}
    {type : LeafType} (hplace : table.types[place]? = some type) :
    (table.after shapes).types[place]? = some type := by
  induction shapes generalizing table with
  | nil => exact hplace
  | cons shape shapes ih =>
      have hanswers := h.answers shape
      exact ih (hanswers.wellFormed h) (hanswers.getElem?_next hplace)

theorem WellFormed.of_mem_granted (h : table.WellFormed) {shapes : List LeafShape}
    {entry : LeafShape × Interned} (hentry : entry ∈ table.granted shapes) :
    (table.after shapes).types[entry.2.place]? = some entry.2.type ∧
      entry.2.type.shape = entry.1 := by
  induction shapes generalizing table with
  | nil => cases hentry
  | cons shape shapes ih =>
      have hanswers := h.answers shape
      have hnext := hanswers.wellFormed h
      unfold granted at hentry
      split at hentry
      · next interned hgranted =>
          rcases List.mem_cons.mp hentry with rfl | hlater
          · rw [hgranted] at hanswers
            obtain ⟨hplace, hshape⟩ := hanswers.of_ok
            exact ⟨hnext.getElem?_after shapes hplace, hshape⟩
          · exact ih hnext hlater
      · exact ih hnext hentry

/-- All that a table has come to hold has been granted. -/
theorem WellFormed.of_mem_after (h : table.WellFormed) {shapes : List LeafShape} {type : LeafType}
    (htype : type ∈ (table.after shapes).types) :
    type ∈ table.types ∨ ∃ entry ∈ table.granted shapes, entry.2.type = type := by
  induction shapes generalizing table with
  | nil => exact .inl htype
  | cons shape shapes ih =>
      have hanswers := h.answers shape
      rcases ih (hanswers.wellFormed h) htype with hheld | ⟨entry, hentry, hsame⟩
      · rcases hanswers.mem_next hheld with hheld | ⟨interned, hgranted, hsame⟩
        · exact .inl hheld
        · refine .inr ⟨(shape, interned), ?_, hsame⟩
          simp only [granted, hgranted, List.mem_cons_self]
      · refine .inr ⟨entry, ?_, hsame⟩
        unfold granted
        split
        · exact List.mem_cons_of_mem _ hentry
        · exact hentry

theorem mem_after_empty {shapes : List LeafShape} {type : LeafType} :
    type ∈ (empty.after shapes).types ↔ ∃ entry ∈ empty.granted shapes, entry.2.type = type := by
  constructor
  · intro htype
    exact (wellFormed_empty.of_mem_after htype).resolve_left List.not_mem_nil
  · rintro ⟨entry, hentry, rfl⟩
    exact List.mem_of_getElem? (wellFormed_empty.of_mem_granted hentry).1

theorem redeclares_after_empty {shapes : List LeafShape} :
    (empty.after shapes).Redeclares shape ↔
      ∃ declared earlier interned, shape = .enumeration declared ∧
        (LeafShape.enumeration earlier, interned) ∈ empty.granted shapes ∧
        earlier.name = declared.name ∧
        (earlier.bits ≠ declared.bits ∨ earlier.symbols ≠ declared.symbols) := by
  have hdiffers {earlier declared : EnumTable} (hname : earlier.name = declared.name) :
      earlier ≠ declared ↔
        earlier.bits ≠ declared.bits ∨ earlier.symbols ≠ declared.symbols := by
    obtain ⟨name, bits, symbols⟩ := earlier
    obtain ⟨other, otherBits, otherSymbols⟩ := declared
    obtain rfl : name = other := hname
    simp only [ne_eq, EnumTable.mk.injEq, true_and, not_and_or]
  constructor
  · rintro ⟨declared, earlier, hshape, ⟨type, htype, hearlier⟩, hname, hne⟩
    obtain ⟨entry, hentry, rfl⟩ := mem_after_empty.mp htype
    have hasked := (wellFormed_empty.of_mem_granted hentry).2
    obtain ⟨asked, interned⟩ := entry
    obtain rfl : asked = .enumeration earlier := hasked.symm.trans hearlier
    exact ⟨declared, earlier, interned, hshape, hentry, hname, (hdiffers hname).mp hne⟩
  · rintro ⟨declared, earlier, interned, hshape, hentry, hname, hother⟩
    exact ⟨declared, earlier, hshape,
      ⟨interned.type, mem_after_empty.mpr ⟨_, hentry, rfl⟩,
        (wellFormed_empty.of_mem_granted hentry).2⟩, hname, (hdiffers hname).mpr hother⟩

theorem size_after_empty (shapes : List LeafShape) :
    (empty.after shapes).size =
      ((empty.granted shapes).map fun entry => entry.2.type).dedup.length := by
  apply List.Perm.length_eq
  apply (List.perm_ext_iff_of_nodup (wellFormed_empty.after shapes).nodup (List.nodup_dedup _)).mpr
  intro type
  rw [List.mem_dedup, List.mem_map, mem_after_empty]

/-- In a new table, two requests that were granted have the same place when they asked for the same
type. -/
theorem place_eq_iff {shapes : List LeafShape} {a b : LeafShape × Interned}
    (ha : a ∈ empty.granted shapes) (hb : b ∈ empty.granted shapes) :
    a.2.place = b.2.place ↔ a.1 = b.1 := by
  obtain ⟨haplace, hashape⟩ := wellFormed_empty.of_mem_granted ha
  obtain ⟨hbplace, hbshape⟩ := wellFormed_empty.of_mem_granted hb
  have hnodup := (wellFormed_empty.after shapes).nodup
  have halt := (List.getElem?_eq_some_iff.mp haplace).1
  rw [← hashape, ← hbshape, ← List.getElem?_inj halt hnodup, haplace, hbplace, Option.some.injEq]
  exact ⟨congrArg LeafType.shape, LeafType.eq_of_shape⟩

end TypeTable

/-! ## Looking up by keys -/

/-- Two shapes share a key when they are the same, or enumerations of the same name. -/
theorem LeafShape.eq_or_enumeration_of_key {a b : LeafShape} (h : a.key = b.key) :
    a = b ∨ ∃ s t, a = .enumeration s ∧ b = .enumeration t ∧ s.name = t.name := by
  cases a with
  | enumeration s =>
      cases b with
      | enumeration t => exact .inr ⟨s, t, rfl, rfl, LeafKey.enumeration.inj h⟩
      | boolean _ => cases h
      | integer _ _ => cases h
      | fixedPoint _ _ _ => cases h
      | nonZeroSize _ => cases h
  | boolean _ => cases b <;> cases h; exact .inl rfl
  | integer _ _ => cases b <;> cases h; exact .inl rfl
  | fixedPoint _ _ _ => cases b <;> cases h; exact .inl rfl
  | nonZeroSize _ => cases b <;> cases h; exact .inl rfl

theorem TypeTable.WellFormed.eq_of_key {table : TypeTable} (h : table.WellFormed) {a b : LeafType}
    (ha : a ∈ table.types) (hb : b ∈ table.types) (hkey : a.shape.key = b.shape.key) : a = b := by
  rcases LeafShape.eq_or_enumeration_of_key hkey with hsame | ⟨s, t, hs, ht, hname⟩
  · exact LeafType.eq_of_shape hsame
  · obtain rfl := h.named a ha b hb s t hs ht hname
    exact LeafType.eq_of_shape (hs.trans ht.symm)

namespace KeyedTable

variable {keyed : KeyedTable} {table : TypeTable} {shape : LeafShape}

/-- The keyed table has the types of the other one, each under its key and at the same place. -/
def Indexes (keyed : KeyedTable) (table : TypeTable) : Prop :=
  keyed.entries = table.types.mapIdx fun place type => (type.shape.key, ⟨place, type⟩)

namespace Indexes

variable (h : keyed.Indexes table)

include h

theorem size_eq : keyed.size = table.size := by
  rw [size, h, List.length_mapIdx, TypeTable.size]

theorem of_find? {key : LeafKey} {held : Interned} (hfind : keyed.find? key = some held) :
    table.types[held.place]? = some held.type ∧ held.type.shape.key = key := by
  obtain ⟨entry, hentry, rfl⟩ := Option.map_eq_some_iff.mp hfind
  have hkey := List.find?_some hentry
  rw [beq_iff_eq] at hkey
  have hmem := List.mem_of_find?_eq_some hentry
  rw [h, List.mem_mapIdx] at hmem
  obtain ⟨place, hlt, rfl⟩ := hmem
  exact ⟨List.getElem?_eq_getElem hlt, hkey⟩

theorem find?_eq (htable : table.WellFormed) {place : Nat} {type : LeafType}
    (hplace : table.types[place]? = some type) :
    keyed.find? type.shape.key = some ⟨place, type⟩ := by
  obtain ⟨hlt, htype⟩ := List.getElem?_eq_some_iff.mp hplace
  rcases hfind : keyed.find? type.shape.key with _ | ⟨other, held⟩
  · have hmem : (type.shape.key, ⟨place, type⟩) ∈ keyed.entries := by
      rw [h, List.mem_mapIdx]
      exact ⟨place, hlt, by rw [htype]⟩
    have hmissed := List.find?_eq_none.mp (Option.map_eq_none_iff.mp hfind) _ hmem
    exact absurd (beq_self_eq_true _) hmissed
  · obtain ⟨hother, hkey⟩ := h.of_find? hfind
    obtain rfl := htable.eq_of_key (List.mem_of_getElem? hother) (List.mem_of_getElem? hplace) hkey
    rw [(List.getElem?_inj hlt htable.nodup).mp (hplace.trans hother.symm)]

theorem find?_eq_none {type : LeafType} (hnew : ¬ table.Redeclares type.shape)
    (hfresh : type ∉ table.types) : keyed.find? type.shape.key = none := by
  by_contra hfound
  obtain ⟨held, hheld⟩ := Option.ne_none_iff_exists'.mp hfound
  obtain ⟨hplace, hkey⟩ := h.of_find? hheld
  have hmem := List.mem_of_getElem? hplace
  rcases LeafShape.eq_or_enumeration_of_key hkey with hsame | ⟨s, t, hs, ht, hname⟩
  · exact hfresh (LeafType.eq_of_shape hsame ▸ hmem)
  · by_cases hsame : s = t
    · subst hsame
      exact hfresh (LeafType.eq_of_shape (hs.trans ht.symm) ▸ hmem)
    · exact hnew ⟨t, s, ht, ⟨held.type, hmem, hs⟩, hname, hsame⟩

end Indexes

theorem request_eq_intern (h : ¬ ∃ declared, shape = .enumeration declared) :
    keyed.request shape = keyed.intern shape.key shape.check := by
  cases shape with
  | enumeration declared => exact absurd ⟨declared, rfl⟩ h
  | boolean _ => rfl
  | integer _ _ => rfl
  | fixedPoint _ _ _ => rfl
  | nonZeroSize _ => rfl

theorem request_held {held : Interned} (hfind : keyed.find? shape.key = some held)
    (hshape : held.type.shape = shape) : keyed.request shape = (.ok held, keyed) := by
  by_cases henumeration : ∃ declared, shape = .enumeration declared
  · obtain ⟨declared, rfl⟩ := henumeration
    have hcheck := LeafShape.check_eq_ok.mpr hshape
    have hkey : keyed.find? (.enumeration declared.name) = some held := hfind
    simp only [request, enumeration, hcheck, intern, hkey, if_true]
  · simp only [request_eq_intern henumeration, intern, hfind]

theorem request_fresh (hfind : keyed.find? shape.key = none) {type : LeafType}
    (hcheck : shape.check = .ok type) :
    keyed.request shape =
      (.ok ⟨keyed.size, type⟩, ⟨keyed.entries ++ [(shape.key, ⟨keyed.size, type⟩)]⟩) := by
  by_cases henumeration : ∃ declared, shape = .enumeration declared
  · obtain ⟨declared, rfl⟩ := henumeration
    have hkey : keyed.find? (.enumeration declared.name) = none := hfind
    simp only [request, enumeration, hcheck, intern, hkey, if_true]
    rfl
  · simp only [request_eq_intern henumeration, intern, hfind, hcheck]

/-- A request for what is no type.  Under its key nothing is held, or it is an enumeration and
refused before the key is looked up. -/
theorem Indexes.request_illegal (h : keyed.Indexes table) {error : LeafError}
    (hcheck : shape.check = .error error) : keyed.request shape = (.error error, keyed) := by
  by_cases henumeration : ∃ declared, shape = .enumeration declared
  · obtain ⟨declared, rfl⟩ := henumeration
    simp only [KeyedTable.request, enumeration, hcheck]
  · have hfind : keyed.find? shape.key = none := by
      by_contra hfound
      obtain ⟨held, hheld⟩ := Option.ne_none_iff_exists'.mp hfound
      rcases LeafShape.eq_or_enumeration_of_key (h.of_find? hheld).2 with hsame | ⟨_, t, _, ht, _⟩
      · cases (LeafShape.check_eq_ok.mpr hsame).symm.trans hcheck
      · exact henumeration ⟨t, ht⟩
    simp only [request_eq_intern henumeration, intern, hfind, hcheck]

/-- A request that redeclares a name finds the other meaning under it. -/
theorem Indexes.request_redeclared (h : keyed.Indexes table) (htable : table.WellFormed)
    {declared : EnumTable} {type : LeafType} (hshape : type.shape = .enumeration declared)
    (hredeclares : table.Redeclares (.enumeration declared)) :
    keyed.request (.enumeration declared) =
      (.error (.enumeration declared.name .redeclared), keyed) := by
  obtain ⟨same, earlier, hsame, ⟨held, hmem, hearlier⟩, hname, hne⟩ := hredeclares
  cases hsame
  obtain ⟨place, hplace⟩ := List.mem_iff_getElem?.mp hmem
  have hkey : held.shape.key = .enumeration declared.name := by
    rw [hearlier, ← hname]
    rfl
  have hfind : keyed.find? (.enumeration declared.name) = some ⟨place, held⟩ := by
    rw [← hkey]
    exact h.find?_eq htable hplace
  have hdiffers : held ≠ type := by
    rintro rfl
    exact hne (LeafShape.enumeration.inj (hearlier.symm.trans hshape))
  simp only [KeyedTable.request, enumeration, LeafShape.check_eq_ok.mpr hshape, intern, hfind,
    if_neg hdiffers]

/-- The two tables answer a request alike, and the keyed one goes on indexing the other. -/
theorem Indexes.request (h : keyed.Indexes table) (htable : table.WellFormed) (shape : LeafShape) :
    (keyed.request shape).1 = (table.request shape).1 ∧
      (keyed.request shape).2.Indexes (table.request shape).2 := by
  have hanswers := htable.answers shape
  revert hanswers
  generalize (table.request shape).1 = answer
  generalize (table.request shape).2 = next
  intro hanswers
  cases hanswers with
  | illegal hfault =>
      rw [h.request_illegal (LeafShape.check_eq_error.mpr hfault)]
      exact ⟨rfl, h⟩
  | redeclared hshape hdeclared hredeclares =>
      subst hdeclared
      rw [h.request_redeclared htable hshape hredeclares]
      exact ⟨rfl, h⟩
  | found hshape _ hplace =>
      subst hshape
      rw [request_held (h.find?_eq htable hplace) rfl]
      exact ⟨rfl, h⟩
  | @added type hshape hnew hfresh =>
      subst hshape
      rw [request_fresh (h.find?_eq_none hnew hfresh) (LeafShape.check_eq_ok.mpr rfl), h.size_eq]
      refine ⟨rfl, ?_⟩
      rw [Indexes, h, List.mapIdx_concat]
      rfl

/-- The table after some requests, some of which may be refused. -/
def after (keyed : KeyedTable) (shapes : List LeafShape) : KeyedTable :=
  shapes.foldl (fun keyed shape => (keyed.request shape).2) keyed

theorem Indexes.after (h : keyed.Indexes table) (htable : table.WellFormed)
    (shapes : List LeafShape) : (keyed.after shapes).Indexes (table.after shapes) := by
  induction shapes generalizing keyed table with
  | nil => exact h
  | cons shape shapes ih =>
      exact ih (h.request htable shape).2 ((htable.answers shape).wellFormed htable)

end KeyedTable

/-- What a type table does in any sequence of requests, granted or refused.  Two granted requests
have the same place exactly when they asked for equal types; what is granted is the type that was
asked for, and its parameters are legal; a refused request leaves the table, and only illegal
parameters and redeclared enumerations are refused; and the size counts the different types that
were granted.  Looking up by keys answers the same at every moment. -/
theorem TypeTable.interns_equal_types (shapes : List LeafShape) :
    let table := TypeTable.empty.after shapes
    let granted := TypeTable.empty.granted shapes
    let keyed := KeyedTable.empty.after shapes
    (∀ a ∈ granted, ∀ b ∈ granted, a.2.place = b.2.place ↔ a.1 = b.1) ∧
    (∀ entry ∈ granted, entry.2.type.shape = entry.1 ∧ entry.1.Admissible) ∧
    (∀ shape error, (table.request shape).1 = .error error → (table.request shape).2 = table) ∧
    (∀ shape, (∃ interned, (table.request shape).1 = .ok interned) ↔
      shape.Admissible ∧
        ¬ ∃ declared earlier interned, shape = .enumeration declared ∧
          (.enumeration earlier, interned) ∈ granted ∧ earlier.name = declared.name ∧
          (earlier.bits ≠ declared.bits ∨ earlier.symbols ≠ declared.symbols)) ∧
    table.size = (granted.map fun entry => entry.2.type).dedup.length ∧
    keyed.size = table.size ∧
    ∀ shape, (keyed.request shape).1 = (table.request shape).1 := by
  intro table granted keyed
  have hempty := TypeTable.wellFormed_empty
  have hwellFormed := hempty.after shapes
  have hindexes : keyed.Indexes table :=
    KeyedTable.Indexes.after (show KeyedTable.empty.Indexes .empty from rfl) hempty shapes
  refine ⟨?_, ?_, ?_, ?_, TypeTable.size_after_empty shapes, hindexes.size_eq, ?_⟩
  · exact fun a ha b hb => TypeTable.place_eq_iff ha hb
  · intro entry hentry
    have hshape := (hempty.of_mem_granted hentry).2
    refine ⟨hshape, ?_⟩
    rw [← hshape, ← LeafShape.fault?_eq_none_iff]
    exact entry.2.type.legal
  · intro shape error herror
    have hanswers := hwellFormed.answers shape
    rw [herror] at hanswers
    exact hanswers.of_error
  · intro shape
    rw [(hwellFormed.answers shape).isOk_iff, TypeTable.redeclares_after_empty]
  · exact fun shape => (hindexes.request hwellFormed shape).1

/-- Of four requests one is refused, and two are for the same type. -/
example : (TypeTable.empty.after
    [.integer 16 true, .integer 65 true, .integer 16 true, .integer 16 false]).size = 2 := by
  decide

end RadioPacket
