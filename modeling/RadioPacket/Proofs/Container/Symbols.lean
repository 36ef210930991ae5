import RadioPacket.Proofs.Container.History
import RadioPacket.Proofs.Leaf.Table

/-!
# Symbols and values

The check of a symbol table tells names apart letter by letter, and a look-up by name does not mind
the case of ASCII letters.  So a value always leads to its own symbol, while a symbol leads to its
own value only if no symbol alike is declared before it.  Otherwise the first symbol alike answers
in its place, and assigning the symbol to a field stores the value of that one.
-/

namespace RadioPacket

/-! ## Looking up -/

namespace EnumTable

/-- The names are the same but for the case of ASCII letters. -/
def Alike (a b : String) : Prop := a.map Char.toLower = b.map Char.toLower

theorem alike_iff {a b : String} :
    Alike a b ↔ a.toList.map Char.toLower = b.toList.map Char.toLower := by
  rw [Alike, ← String.toList_inj, String.toList_map, String.toList_map]

/-- The table declares the symbol, and one alike before it. -/
def IsShadowed (table : EnumTable) (symbol : String) : Prop :=
  ∃ earlier value later, table.symbols = earlier ++ (symbol, value) :: later ∧
    ∃ other ∈ earlier, Alike other.1 symbol

variable {table : EnumTable} {symbol : String} {value : Nat}

theorem Unambiguous.eq_of_name (h : table.Unambiguous) {a b : String × Nat}
    (ha : a ∈ table.symbols) (hb : b ∈ table.symbols) (hname : a.1 = b.1) : a = b :=
  List.inj_on_of_nodup_map h.names ha hb hname

theorem Unambiguous.eq_of_value (h : table.Unambiguous) {a b : String × Nat}
    (ha : a ∈ table.symbols) (hb : b ∈ table.symbols) (hvalue : a.2 = b.2) : a = b :=
  List.inj_on_of_nodup_map h.values ha hb hvalue

theorem mem_of_symbol? (h : table.symbol? value = some symbol) :
    (symbol, value) ∈ table.symbols := by
  obtain ⟨⟨name, number⟩, hfind, rfl⟩ := Option.map_eq_some_iff.mp h
  have hmem := List.mem_of_find?_eq_some hfind
  have hnumber := List.find?_some hfind
  rw [beq_iff_eq] at hnumber
  exact hnumber ▸ hmem

theorem Unambiguous.symbol?_eq (h : table.Unambiguous)
    (hdeclared : (symbol, value) ∈ table.symbols) : table.symbol? value = some symbol := by
  rcases hfound : table.symbol? value with _ | found
  · rw [symbol?, Option.map_eq_none_iff, List.find?_eq_none] at hfound
    exact absurd (beq_self_eq_true value) (hfound _ hdeclared)
  · have hsame := h.eq_of_value (mem_of_symbol? hfound) hdeclared rfl
    rw [(Prod.mk.inj hsame).1]

/-- A symbol leads to the value of the first symbol alike. -/
theorem valueOf?_eq_some_iff : table.valueOf? symbol = some value ↔
    ∃ earlier first later, table.symbols = earlier ++ (first, value) :: later ∧
      Alike first symbol ∧ ∀ other ∈ earlier, ¬ Alike other.1 symbol := by
  simp only [valueOf?, Option.map_eq_some_iff, List.find?_eq_some_iff_append, beq_iff_eq,
    Bool.not_eq_true', beq_eq_false_iff_ne]
  constructor
  · rintro ⟨⟨first, found⟩, ⟨halike, earlier, later, hsplit, hearlier⟩, rfl⟩
    exact ⟨earlier, first, later, hsplit, halike, hearlier⟩
  · rintro ⟨earlier, first, later, hsplit, halike, hearlier⟩
    exact ⟨(first, value), ⟨halike, earlier, later, hsplit, hearlier⟩, rfl⟩

theorem exists_valueOf? (hdeclared : (symbol, value) ∈ table.symbols) :
    ∃ found, table.valueOf? symbol = some found := by
  rcases hfound : table.valueOf? symbol with _ | found
  · rw [valueOf?, Option.map_eq_none_iff, List.find?_eq_none] at hfound
    exact absurd (beq_self_eq_true _) (hfound _ hdeclared)
  · exact ⟨found, rfl⟩

/-- A declared symbol leads to its own value unless it is shadowed. -/
theorem Unambiguous.valueOf?_eq_iff (h : table.Unambiguous)
    (hdeclared : (symbol, value) ∈ table.symbols) :
    table.valueOf? symbol = some value ↔ ¬ table.IsShadowed symbol := by
  constructor
  · rintro hvalue ⟨earlier, own, later, hsplit, other, hother, halike⟩
    have hmem : (symbol, own) ∈ table.symbols := hsplit ▸ List.mem_append_right _ List.mem_cons_self
    have hown := (Prod.mk.inj (h.eq_of_name hmem hdeclared rfl)).2
    have hvalues := h.values
    rw [hsplit, List.map_append, List.map_cons, List.nodup_append] at hvalues
    rw [valueOf?, hsplit, List.find?_append] at hvalue
    -- The search ends before it comes to the symbol, at an entry of another value.
    rcases hfirst : earlier.find? fun entry =>
        entry.1.map Char.toLower == symbol.map Char.toLower with _ | first
    · exact List.find?_eq_none.mp hfirst other hother (beq_iff_eq.mpr halike)
    · rw [hfirst, Option.some_or, Option.map_some, Option.some.injEq] at hvalue
      have hbefore : first.2 ∈ earlier.map (·.2) :=
        List.mem_map_of_mem (List.mem_of_find?_eq_some hfirst)
      exact hvalues.2.2 first.2 hbefore own List.mem_cons_self (hvalue.trans hown.symm)
  · intro hfree
    obtain ⟨found, hfound⟩ := exists_valueOf? hdeclared
    obtain ⟨earlier, first, later, hsplit, halike, hearlier⟩ := valueOf?_eq_some_iff.mp hfound
    rw [hsplit] at hdeclared
    rcases List.mem_append.mp hdeclared with hbefore | hrest
    · exact absurd rfl (hearlier _ hbefore)
    · rcases List.mem_cons.mp hrest with hhere | hbehind
      · rw [hfound, (Prod.mk.inj hhere).2]
      · obtain ⟨middle, last, rfl⟩ := List.append_of_mem hbehind
        refine absurd ⟨earlier ++ (first, found) :: middle, value, last, ?_, (first, found), ?_,
          halike⟩ hfree
        · rw [hsplit, List.append_assoc, List.cons_append]
        · exact List.mem_append_right _ List.mem_cons_self

theorem valueOf?_congr {other : String} (h : Alike symbol other) :
    table.valueOf? symbol = table.valueOf? other := by
  simp only [valueOf?, show symbol.map Char.toLower = other.map Char.toLower from h]

/-- What a symbol leads to is the value of a symbol alike that is not shadowed. -/
theorem Unambiguous.exists_first (h : table.Unambiguous)
    (hdeclared : (symbol, value) ∈ table.symbols) :
    ∃ first found, (first, found) ∈ table.symbols ∧ Alike first symbol ∧
      ¬ table.IsShadowed first ∧ table.valueOf? symbol = some found := by
  obtain ⟨found, hfound⟩ := exists_valueOf? hdeclared
  obtain ⟨earlier, first, later, hsplit, halike, _⟩ := valueOf?_eq_some_iff.mp hfound
  have hfirst : (first, found) ∈ table.symbols :=
    hsplit ▸ List.mem_append_right _ List.mem_cons_self
  have hown : table.valueOf? first = some found := (valueOf?_congr halike).trans hfound
  exact ⟨first, found, hfirst, halike, (h.valueOf?_eq_iff hfirst).mp hown, hfound⟩

/-- Every symbol leads to its own value exactly when no two of them are alike. -/
theorem Unambiguous.inverts_iff (h : table.Unambiguous) :
    (∀ entry ∈ table.symbols, table.valueOf? entry.1 = some entry.2) ↔
      ∀ a ∈ table.symbols, ∀ b ∈ table.symbols, Alike a.1 b.1 → a = b := by
  constructor
  · intro hinverts a ha b hb halike
    have hfound := (hinverts a ha).symm.trans ((valueOf?_congr halike).trans (hinverts b hb))
    exact h.eq_of_value ha hb (Option.some.inj hfound)
  · intro hdistinct entry hentry
    obtain ⟨first, found, hfirst, halike, _, hfound⟩ := h.exists_first hentry
    rw [hfound, ← hdistinct (first, found) hfirst entry hentry halike]

end EnumTable

/-! ## Values of an enumeration -/

namespace LeafType

variable {type : LeafType} {table : EnumTable}

theorem unambiguous_of_table? (htable : type.table? = some table) : table.Unambiguous := by
  have hshape := table?_eq_some.mp htable
  have hadmissible := (LeafShape.fault?_eq_none_iff type.shape).mp type.legal
  rw [hshape] at hadmissible
  exact hadmissible.2

theorem declared_of_normal (htable : type.table? = some table) {value : Scalar}
    (h : type.Normal value) :
    ∃ number symbol, value = .unsigned number ∧ (symbol, number) ∈ table.symbols := by
  have hform := coerce_eq_ok h
  rw [table?_eq_some.mp htable] at hform
  obtain ⟨number, hmember, rfl⟩ := hform
  obtain ⟨symbol, hsymbol⟩ := Option.isSome_iff_exists.mp hmember
  exact ⟨number, symbol, rfl, EnumTable.mem_of_symbol? hsymbol⟩

end LeafType

/-! ## Assigning a symbol -/

/-- The layout has a field under the name. -/
def Layout.Declares (layout : Layout) (name : String) (field : Field) : Prop :=
  ∃ index slot, layout.index? name = some index ∧ layout.slots[index]? = some slot ∧
    slot.item = .field field

namespace Container

variable {c : Container} {index : Nat} {slot : Slot} {field : Field} {type : LeafType}

theorem Fits.stores (h : c.Fits) (hslot : c.layout.slots[index]? = some slot)
    (hfield : slot.item = .field field) (htype : field.type = .leaf type) :
    ∃ value present, c.Stores c.layout index slot value present := by
  have hlength : c.cells.length = c.layout.slots.length := h.holds.length_eq.symm
  obtain ⟨cell, hcell, hholds⟩ := h.holds.cell hslot
  obtain ⟨value, mode, rfl, _⟩ := hholds.exists_leaf hfield htype
  refine ⟨value, (slot.link.map (Cell.isSetAt c.cells)).getD false, rfl, hlength,
    ⟨mode, hcell⟩, ?_⟩
  intro gate hgate
  obtain ⟨found, enable, hfound, henable⟩ :=
    h.built.sound.isEnable_of_link (List.mem_of_getElem? hslot) hfield hgate
  rw [hgate]
  exact h.enable_cell hfound henable

variable {table : EnumTable} {name symbol : String} {number : Nat}

theorem assignSymbol_eq_assignAt (hindex : c.layout.index? name = some index)
    (hslot : c.layout.slots[index]? = some slot) (hfield : slot.item = .field field)
    (htype : field.type = .leaf type) (htable : type.table? = some table)
    (hnumber : table.valueOf? symbol = some number) :
    c.assignSymbol name symbol = c.assignAt index (some (.scalar (.unsigned number))) := by
  have hfound : c.enumTable? index = some table := by
    rw [enumTable?_eq hslot, Slot.table?, hfield, Item.field?, Option.bind_some, htype,
      FieldType.leaf?, Option.bind_some, htable]
  simp only [assignSymbol, index_eq_ok hindex, bind, Except.bind, hfound, hnumber]

/-- A read-only field takes no symbol.  Any other stores the value that the symbol leads to, and
then shows it. -/
theorem Fits.assignSymbol_outcome (h : c.Fits) (hindex : c.layout.index? name = some index)
    (hslot : c.layout.slots[index]? = some slot) (hfield : slot.item = .field field)
    (htype : field.type = .leaf type) (htable : type.table? = some table)
    (hnumber : table.valueOf? symbol = some number) :
    (field.editable = false → c.assignSymbol name symbol = .error (.readOnly field.name)) ∧
      (field.editable = true → ∃ changed, c.assignSymbol name symbol = .ok changed ∧
        changed.read name = .ok (some (.scalar (.unsigned number)))) := by
  rw [assignSymbol_eq_assignAt hindex hslot hfield htype htable hnumber]
  simp only [Container.assignAt, Layout.slot?, hslot, hfield]
  constructor
  · intro heditable
    rw [heditable]
    rfl
  · intro heditable
    obtain ⟨value, present, hstores⟩ := h.stores hslot hfield htype
    have hself := h.built.linked.matched.link_ne_self hslot
    let effect : Effect := ⟨.leaf (.unsigned number) (c.modeAt index), some true, .ok ()⟩
    have hafter : (effect.apply c index slot.link).Stores c.layout index slot
        (.unsigned number) true := hstores.apply_field hself rfl
    have hshown := hafter.get?_eq hslot hfield htype
    rw [if_neg fun hboth => Bool.noConfusion hboth.2] at hshown
    refine ⟨effect.apply c index slot.link, ?_, ?_⟩
    · rw [heditable, htype, FieldType.accept, type.coerce_of_valueOf? htable hnumber]
      rfl
    · rw [read, index_eq_ok (hafter.shape.symm ▸ hindex)]
      exact congrArg Except.ok hshown

end Container

/-- How far symbols and values of an enumeration are inverse.  A declared value always leads to its
symbol.  A declared symbol leads to its value exactly when no symbol alike is declared before it;
otherwise it leads to the value of the first one alike, and assigning it to a field stores that one.
So the two look-ups are inverse exactly when no two symbols are alike. -/
theorem LeafType.symbols_invert_unless_shadowed {type : LeafType} {table : EnumTable}
    (htable : type.table? = some table) :
    (∀ symbol value, (symbol, value) ∈ table.symbols →
      table.symbol? value = some symbol ∧
        ∃ first found, (first, found) ∈ table.symbols ∧ EnumTable.Alike first symbol ∧
          ¬ table.IsShadowed first ∧ table.valueOf? symbol = some found ∧
          (found = value ↔ ¬ table.IsShadowed symbol) ∧
          ∀ c : Container, c.Reachable → ∀ name field, c.layout.Declares name field →
            field.type = .leaf type →
            (field.editable = false →
              c.assignSymbol name symbol = .error (.readOnly field.name)) ∧
            (field.editable = true → ∃ changed, c.assignSymbol name symbol = .ok changed ∧
              changed.read name = .ok (some (.scalar (.unsigned found))))) ∧
      (∀ value, type.Normal value → ∃ number symbol, value = .unsigned number ∧
        (symbol, number) ∈ table.symbols ∧ table.symbol? number = some symbol ∧
        (table.valueOf? symbol = some number ↔ ¬ table.IsShadowed symbol)) ∧
      ((∀ entry ∈ table.symbols, table.valueOf? entry.1 = some entry.2) ↔
        ∀ a ∈ table.symbols, ∀ b ∈ table.symbols, EnumTable.Alike a.1 b.1 → a = b) := by
  have hunambiguous := unambiguous_of_table? htable
  refine ⟨?_, ?_, hunambiguous.inverts_iff⟩
  · intro symbol value hdeclared
    obtain ⟨first, found, hfirst, halike, hfree, hfound⟩ := hunambiguous.exists_first hdeclared
    refine ⟨hunambiguous.symbol?_eq hdeclared, first, found, hfirst, halike, hfree, hfound, ?_, ?_⟩
    · rw [← hunambiguous.valueOf?_eq_iff hdeclared, hfound, Option.some.injEq]
    · intro c hc name field hfield htype
      obtain ⟨index, slot, hindex, hslot, hitem⟩ := hfield
      exact hc.fits.assignSymbol_outcome hindex hslot hitem htype htable hfound
  · intro value hvalue
    obtain ⟨number, symbol, rfl, hdeclared⟩ := declared_of_normal htable hvalue
    exact ⟨number, symbol, rfl, hdeclared, hunambiguous.symbol?_eq hdeclared,
      hunambiguous.valueOf?_eq_iff hdeclared⟩

namespace Layout.Sample

/-- Two symbols that differ in case only, and a third one. -/
def letterTable : EnumTable := ⟨"letter", 2, [("A", 0), ("a", 1), ("b", 2)]⟩

def letter : LeafType := ⟨.enumeration letterTable, by decide⟩

/-- The layout of a structure that is one letter. -/
def letterLayout : Layout where
  name := "card"
  slots := [⟨.field { name := "letter", type := .leaf letter }, ⟨0⟩, none⟩]
  bits := 2
  warnings := [.size "card" 2]
  dynamicSize := false

theorem built_letterLayout : letterLayout.Built := by
  let card := (Blueprint.new "card").field { name := "letter", type := .leaf letter }
  have hsteps : ∀ step ∈ card.steps, ∀ inner, step.record? = some inner → inner.Built := by
    intro step hstep inner hinner
    obtain rfl := List.mem_singleton.mp hstep
    cases hinner
  exact .fresh rfl hsteps rfl

/-- The third letter is stored when it is assigned. -/
theorem assign_third_letter :
    letterTable.symbol? 2 = some "b" ∧ letterTable.valueOf? "b" = some 2 ∧
      ∃ changed, (Container.new letterLayout).assignSymbol "letter" "b" = .ok changed ∧
        changed.read "letter" = .ok (some (.scalar (.unsigned 2))) := by
  obtain ⟨hdeclared, _, _⟩ := LeafType.symbols_invert_unless_shadowed
    (show letter.table? = some letterTable from rfl)
  obtain ⟨hsymbol, _, found, _, _, _, hfound, _, hassign⟩ := hdeclared "b" 2 (by decide)
  have hothers : ∀ other ∈ [("A", 0), ("a", 1)], ¬ EnumTable.Alike other.1 "b" := by
    simp only [EnumTable.alike_iff]
    decide
  have hvalue : letterTable.valueOf? "b" = some 2 :=
    EnumTable.valueOf?_eq_some_iff.mpr ⟨_, "b", [], rfl, rfl, hothers⟩
  obtain rfl := Option.some.inj (hvalue.symm.trans hfound)
  have hfield : letterLayout.Declares "letter" { name := "letter", type := .leaf letter } :=
    ⟨0, _, rfl, rfl, rfl⟩
  obtain ⟨_, hstored⟩ := hassign _ (.new built_letterLayout) "letter" _ hfield rfl
  exact ⟨hsymbol, hvalue, hstored rfl⟩

/-- The second letter stands for one and leads to zero, and zero is stored when it is assigned. -/
theorem second_letter_stores_first :
    letter.table? = some letterTable ∧ ("a", 1) ∈ letterTable.symbols ∧
      letterTable.symbol? 1 = some "a" ∧ letterTable.valueOf? "a" = some 0 ∧
      ((Container.new letterLayout).assignSymbol "letter" "a" >>= (·.read "letter")).toOption =
        some (some (.scalar (.unsigned 0))) := by
  have halike : EnumTable.Alike "A" "a" := EnumTable.alike_iff.mpr (by decide)
  have hvalue : letterTable.valueOf? "a" = some 0 :=
    EnumTable.valueOf?_eq_some_iff.mpr ⟨[], "A", _, rfl, halike, nofun⟩
  refine ⟨rfl, by decide, by decide, hvalue, ?_⟩
  rw [Container.assignSymbol_eq_assignAt rfl rfl rfl rfl rfl hvalue]
  rfl

end Layout.Sample

end RadioPacket
