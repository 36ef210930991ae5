import Mathlib.Data.List.Chain
import Mathlib.Data.List.Perm.Basic
import RadioPacket.Cif.Checked
import RadioPacket.Proofs.Layout.Matching

/-!
# The indicator word of a group

The items of an indicator word follow from the entries of the group bit by bit, so the order of the
entries does not matter and reserved entries are like bits that nobody declared.  The word can be
built exactly when the named entries have distinct names.  Each named entry then has a slot at its
bit, runs of the other bits stand between them, and nothing in the word is linked.
-/

namespace RadioPacket

theorem Item.bits_le_totalBits {item : Item} {items : List Item} (h : item ∈ items) :
    item.bits ≤ totalBits items := by
  induction items with
  | nil => cases h
  | cons first rest ih =>
      rw [totalBits]
      rcases List.mem_cons.mp h with rfl | hrest
      · exact Nat.le_add_right _ _
      · exact Nat.le_add_left_of_le (ih hrest)

namespace Linkage

theorem slotsFrom_append (all : List Item) (position : Position) (items others : List Item) :
    slotsFrom all position (items ++ others) =
      slotsFrom all position items ++
        slotsFrom all (position + Item.totalBits items) others := by
  induction items generalizing position with
  | nil => rfl
  | cons item items ih =>
      have hposition : position + item.bits + Item.totalBits items =
          position + Item.totalBits (item :: items) :=
        congrArg Position.mk (Nat.add_assoc _ _ _)
      rw [List.cons_append, slotsFrom, slotsFrom, ih, hposition, List.cons_append]

end Linkage

namespace CifEntry

def isReserved (entry : CifEntry) : Bool :=
  match entry.kind with
  | .reserved => true
  | _ => false

/-- The item of an entry in the indicator word. -/
def item? (entry : CifEntry) : Option Item :=
  match entry.kind with
  | .content _ => some (.enable { name := entry.name, field := some entry.name })
  | .indicator => some (.field { name := entry.name, type := .leaf .flag, mode := entry.mode })
  | .reserved => none

/-- An entry that announces a payload field, with the type of the field. -/
def payload? (entry : CifEntry) : Option (CifEntry × FieldType) :=
  match entry.kind with
  | .content type => some (entry, type)
  | _ => none

/-- The names that the entries give to bits of the word. -/
def names (entries : List CifEntry) : List String :=
  (entries.filter fun entry => !entry.isReserved).map CifEntry.name

/-- Entries that make a group: they use different bits of the word, and have different names unless
they are reserved. -/
structure Legal (entries : List CifEntry) : Prop where
  inWord : ∀ entry ∈ entries, entry.bit < 32
  bits : (entries.map CifEntry.bit).Nodup
  names : (names entries).Nodup

theorem item?_eq_none {entry : CifEntry} : entry.item? = none ↔ entry.isReserved = true := by
  rw [item?, isReserved]
  cases entry.kind with
  | content _ => simp
  | indicator => simp
  | reserved => simp

theorem payload?_eq_some {entry other : CifEntry} {type : FieldType} :
    entry.payload? = some (other, type) ↔ other = entry ∧ entry.kind = .content type := by
  rw [payload?]
  cases entry.kind with
  | content _ => simp [eq_comm]
  | indicator => simp
  | reserved => simp

theorem payload?_eq_none {entry : CifEntry} (h : entry.isReserved = true) :
    entry.payload? = none := by
  rw [isReserved] at h
  rw [payload?]
  split at h
  · next hkind => rw [hkind]
  · cases h

/-- The item of an entry is one bit wide and carries its name.  An enable names the payload field,
which has the same name, and a flag has no gate. -/
theorem item?_eq_some {entry : CifEntry} {item : Item} (h : entry.item? = some item) :
    item.bits = 1 ∧ item.name? = some entry.name ∧ item.isReserved = false ∧
      item.record? = none ∧
      (∀ enable, item = .enable enable → enable.field = some enable.name) ∧
      ∀ field, item = .field field → field.enabledBy = none := by
  rw [item?] at h
  cases hkind : entry.kind with
  | content type =>
      simp only [hkind, Option.some.injEq] at h
      subst h
      exact ⟨rfl, rfl, rfl, rfl, by rintro _ ⟨⟩; rfl, nofun⟩
  | indicator =>
      simp only [hkind, Option.some.injEq] at h
      subst h
      exact ⟨rfl, rfl, rfl, rfl, nofun, by rintro _ ⟨⟩; rfl⟩
  | reserved => simp [hkind] at h

theorem filterMap_item?_name? (entries : List CifEntry) :
    (entries.filterMap item?).filterMap Item.name? = names entries := by
  induction entries with
  | nil => rfl
  | cons entry entries ih =>
      rw [names] at ih ⊢
      cases hitem : entry.item? with
      | none =>
          rw [List.filterMap_cons_none hitem, List.filter_cons_of_neg, ih]
          simp [item?_eq_none.mp hitem]
      | some item =>
          obtain ⟨_, hname, _⟩ := item?_eq_some hitem
          have hnamed : (!entry.isReserved) = true := by
            rw [Bool.not_eq_true', Bool.eq_false_iff]
            intro hreserved
            rw [item?_eq_none.mpr hreserved] at hitem
            cases hitem
          rw [List.filterMap_cons_some hitem, List.filterMap_cons_some hname, List.filter_cons,
            if_pos hnamed, List.map_cons, ih]

namespace Legal

variable {entries others : List CifEntry}

theorem perm (hperm : entries.Perm others) (h : Legal entries) : Legal others where
  inWord entry hentry := h.inWord entry (hperm.mem_iff.mpr hentry)
  bits := (hperm.map CifEntry.bit).nodup_iff.mp h.bits
  names := ((hperm.filter _).map CifEntry.name).nodup_iff.mp h.names

theorem sublist (hsub : others.Sublist entries) (h : Legal entries) : Legal others where
  inWord entry hentry := h.inWord entry (hsub.subset hentry)
  bits := h.bits.sublist (hsub.map CifEntry.bit)
  names := h.names.sublist ((hsub.filter _).map CifEntry.name)

end Legal

end CifEntry

namespace CifBlueprint

variable {blueprint : CifBlueprint}

theorem checkEntries_eq_ok {group : String} {seen entries : List CifEntry} :
    checkEntries group seen entries = .ok () ↔
      (∀ entry ∈ entries, entry.bit < 32) ∧ (entries.map CifEntry.bit).Nodup ∧
        ∀ first ∈ seen, first.bit ∉ entries.map CifEntry.bit := by
  induction entries generalizing seen with
  | nil => simp [checkEntries]
  | cons entry rest ih =>
      rw [checkEntries, List.forall_mem_cons, List.map_cons, List.nodup_cons]
      by_cases hbit : wordBits ≤ entry.bit
      · have hout : ¬ entry.bit < 32 := Nat.not_lt_of_le hbit
        simp [hbit, hout]
      have hin : entry.bit < 32 := Nat.lt_of_not_le hbit
      simp only [if_neg hbit, hin, true_and]
      cases hfound : seen.find? fun first => first.bit == entry.bit with
      | some first =>
          have hsame : first.bit = entry.bit := by simpa using List.find?_some hfound
          constructor
          · intro h
            cases h
          · rintro ⟨_, _, hfresh⟩
            have hfirst := hfresh first (List.mem_of_find?_eq_some hfound)
            exact absurd (hsame ▸ List.mem_cons_self) hfirst
      | none =>
          have hnew : ∀ first ∈ seen, first.bit ≠ entry.bit := by simpa using hfound
          simp only [ih, List.mem_append, List.mem_cons, List.not_mem_nil, or_false, not_or]
          constructor
          · rintro ⟨hinWord, hnodup, hfresh⟩
            refine ⟨hinWord, ⟨hfresh entry (.inr rfl), hnodup⟩, ?_⟩
            exact fun first hfirst => ⟨hnew first hfirst, hfresh first (.inl hfirst)⟩
          · rintro ⟨hinWord, ⟨hentry, hnodup⟩, hfresh⟩
            refine ⟨hinWord, hnodup, ?_⟩
            rintro first (hfirst | rfl)
            · exact (hfresh first hfirst).2
            · exact hentry

/-! ## Entries by their bits -/

theorem entryAt?_eq_some (h : (blueprint.entries.map CifEntry.bit).Nodup) {bit : Nat}
    {entry : CifEntry} :
    blueprint.entryAt? bit = some entry ↔ entry ∈ blueprint.entries ∧ entry.bit = bit := by
  constructor
  · intro hfound
    exact ⟨List.mem_of_find?_eq_some hfound, by simpa using List.find?_some hfound⟩
  · rintro ⟨hentry, rfl⟩
    cases hfound : blueprint.entryAt? entry.bit with
    | none =>
        have hnone := List.find?_eq_none.mp hfound entry hentry
        simp at hnone
    | some other =>
        have hother : other.bit = entry.bit := by simpa using List.find?_some hfound
        rw [List.inj_on_of_nodup_map h (List.mem_of_find?_eq_some hfound) hentry hother]

/-- The entries from the highest bit down. -/
def sorted (blueprint : CifBlueprint) : List CifEntry :=
  (List.range wordBits).reverse.filterMap blueprint.entryAt?

theorem sorted_perm (hinWord : ∀ entry ∈ blueprint.entries, entry.bit < 32)
    (hbits : (blueprint.entries.map CifEntry.bit).Nodup) :
    blueprint.sorted.Perm blueprint.entries := by
  have hnodup : blueprint.sorted.Nodup := by
    apply List.Nodup.filterMap _ (List.nodup_reverse.mpr List.nodup_range)
    intro a b entry ha hb
    rw [Option.mem_def, entryAt?_eq_some hbits] at ha hb
    exact ha.2.symm.trans hb.2
  rw [List.perm_ext_iff_of_nodup hnodup (List.Nodup.of_map _ hbits)]
  intro entry
  simp only [sorted, List.mem_filterMap, List.mem_reverse, List.mem_range, entryAt?_eq_some hbits]
  constructor
  · rintro ⟨_, _, hentry, _⟩
    exact hentry
  · intro hentry
    exact ⟨entry.bit, hinWord entry hentry, hentry, rfl⟩

theorem wordItem?_eq (bit : Nat) :
    blueprint.wordItem? bit = (blueprint.entryAt? bit).bind CifEntry.item? := rfl

theorem payload_eq : blueprint.payload = blueprint.sorted.filterMap CifEntry.payload? := by
  rw [payload, sorted, List.filterMap_filterMap]
  rfl

theorem wordItem?_eq_some (h : (blueprint.entries.map CifEntry.bit).Nodup) {bit : Nat}
    {item : Item} :
    blueprint.wordItem? bit = some item ↔
      ∃ entry ∈ blueprint.entries, entry.bit = bit ∧ entry.item? = some item := by
  simp only [wordItem?_eq, Option.bind_eq_some_iff, entryAt?_eq_some h, and_assoc]

theorem bits_of_wordItem? {bit : Nat} {item : Item} (h : blueprint.wordItem? bit = some item) :
    item.bits = 1 ∧ item.isReserved = false := by
  rw [wordItem?_eq, Option.bind_eq_some_iff] at h
  obtain ⟨entry, _, hitem⟩ := h
  obtain ⟨hbits, _, hnamed, _⟩ := CifEntry.item?_eq_some hitem
  exact ⟨hbits, hnamed⟩

/-! ## The items of the word -/

theorem reverse_range_succ (n : Nat) :
    (List.range (n + 1)).reverse = n :: (List.range n).reverse := by
  rw [List.range_succ, List.reverse_append, List.reverse_singleton, List.singleton_append]

/-- What is about named items alone sees only the items of the entries, from the highest bit
down. -/
theorem filterMap_wordItems {α : Type} {f : Item → Option α}
    (hreserved : ∀ bits, f (.reserved { bits }) = none) (bit run : Nat) :
    (blueprint.wordItems bit run).filterMap f =
      ((List.range bit).reverse.filterMap blueprint.wordItem?).filterMap f := by
  have hrun (run : Nat) : (Item.reservedRun run).filterMap f = [] := by
    rw [Item.reservedRun]
    split
    · rfl
    · rw [List.filterMap_cons_none (hreserved run), List.filterMap_nil]
  induction bit generalizing run with
  | zero => exact hrun run
  | succ bit ih =>
      rw [wordItems, reverse_range_succ]
      cases hitem : blueprint.wordItem? bit with
      | none => rw [List.filterMap_cons_none hitem, ih]
      | some item =>
          rw [List.filterMap_cons_some hitem, List.filterMap_append, hrun, List.nil_append,
            List.filterMap_cons, List.filterMap_cons, ih]

theorem forall_mem_wordItems {P : Item → Prop}
    (hreserved : ∀ bits, 0 < bits → P (.reserved { bits }))
    (hitems : ∀ bit item, blueprint.wordItem? bit = some item → P item) (bit run : Nat) :
    ∀ item ∈ blueprint.wordItems bit run, P item := by
  have hrun (run : Nat) : ∀ item ∈ Item.reservedRun run, P item := by
    intro item hitem
    rw [Item.reservedRun] at hitem
    split at hitem
    · cases hitem
    · next hpos =>
        obtain rfl := List.mem_singleton.mp hitem
        exact hreserved run (Nat.pos_of_ne_zero hpos)
  induction bit generalizing run with
  | zero => exact hrun run
  | succ bit ih =>
      rw [wordItems]
      cases hfirst : blueprint.wordItem? bit with
      | none => exact ih (run + 1)
      | some first =>
          rw [List.forall_mem_append, List.forall_mem_cons]
          exact ⟨hrun run, hitems bit first hfirst, ih 0⟩

theorem totalBits_wordItems (bit run : Nat) :
    Item.totalBits (blueprint.wordItems bit run) = bit + run := by
  induction bit generalizing run with
  | zero => simp [wordItems]
  | succ bit ih =>
      rw [wordItems]
      cases hitem : blueprint.wordItem? bit with
      | none =>
          simp only [ih]
          omega
      | some item =>
          simp only [Item.totalBits_append, Item.totalBits_reservedRun, Item.totalBits, ih,
            (bits_of_wordItem? hitem).1]
          omega

/-- Of two neighbouring items at most one is reserved. -/
theorem isChain_wordItems (bit run : Nat) :
    (blueprint.wordItems bit run).IsChain fun a b =>
      ¬ (a.isReserved = true ∧ b.isReserved = true) := by
  have hrun (run : Nat) : (Item.reservedRun run).IsChain fun a b =>
      ¬ (a.isReserved = true ∧ b.isReserved = true) := by
    unfold Item.reservedRun
    split
    · exact .nil
    · exact .singleton _
  induction bit generalizing run with
  | zero => exact hrun run
  | succ bit ih =>
      rw [wordItems]
      cases hitem : blueprint.wordItem? bit with
      | none => exact ih (run + 1)
      | some item =>
          have hnamed := (bits_of_wordItem? hitem).2
          refine (hrun run).append (List.isChain_cons.mpr ⟨?_, ih 0⟩) ?_
          · intro _ _ hboth
            rw [hnamed] at hboth
            exact absurd hboth.1 (by decide)
          · intro _ _ next hnext hboth
            obtain rfl : item = next := by simpa using hnext
            rw [hnamed] at hboth
            exact absurd hboth.2 (by decide)

/-! ## The slots of the word -/

theorem offset_ofWordBit {bit : Nat} (h : bit < 32) :
    (Position.ofWordBit 0 bit).offset = 31 - bit := by
  simp only [Position.ofWordBit, wordBits]
  omega

theorem mem_slotsFrom_wordItems {all : List Item} {bit run : Nat} {position : Position}
    (hposition : position.offset + run + bit = 32) {slot : Slot}
    (hnamed : slot.item.isReserved = false) :
    slot ∈ Linkage.slotsFrom all position (blueprint.wordItems bit run) ↔
      ∃ b < bit, blueprint.wordItem? b = some slot.item ∧ slot.position = .ofWordBit 0 b ∧
        slot.link = Linkage.partner? all slot.item := by
  have hrun (run : Nat) (position : Position) :
      slot ∉ Linkage.slotsFrom all position (Item.reservedRun run) := by
    intro hslot
    have hitem : slot.item ∈ Item.reservedRun run := by
      rw [← Linkage.map_item_slotsFrom all position (Item.reservedRun run)]
      exact List.mem_map_of_mem hslot
    obtain ⟨reserved, hreserved⟩ := Item.eq_reserved_of_mem_reservedRun hitem
    rw [hreserved] at hnamed
    cases hnamed
  induction bit generalizing run position with
  | zero => simp [wordItems, hrun]
  | succ bit ih =>
      rw [wordItems]
      cases hitem : blueprint.wordItem? bit with
      | none =>
          simp only [ih (show position.offset + (run + 1) + bit = 32 by omega)]
          constructor
          · rintro ⟨b, hb, hfound⟩
            exact ⟨b, by omega, hfound⟩
          · rintro ⟨b, hb, hfound, hplace⟩
            have hne : b ≠ bit := by
              rintro rfl
              cases hitem.symm.trans hfound
            exact ⟨b, by omega, hfound, hplace⟩
      | some item =>
          have hplace : position + run = .ofWordBit 0 bit := by
            have hoffset : (position + run).offset = (Position.ofWordBit 0 bit).offset := by
              rw [offset_ofWordBit (by omega), Position.offset_add]
              omega
            exact congrArg Position.mk hoffset
          have hnext : (position + run + item.bits).offset + 0 + bit = 32 := by
            rw [(bits_of_wordItem? hitem).1, Position.offset_add, Position.offset_add]
            omega
          simp only [Linkage.slotsFrom_append, Item.totalBits_reservedRun, Linkage.slotsFrom,
            List.mem_append, hrun, false_or, List.mem_cons, ih hnext]
          constructor
          · rintro (rfl | ⟨b, hb, hfound⟩)
            · exact ⟨bit, by omega, hitem, hplace, rfl⟩
            · exact ⟨b, by omega, hfound⟩
          · rintro ⟨b, hb, hfound, hposition, hlink⟩
            by_cases heq : b = bit
            · subst heq
              obtain ⟨found, _, _⟩ := slot
              obtain rfl := Option.some.inj (hitem.symm.trans hfound)
              left
              rw [Slot.mk.injEq]
              exact ⟨rfl, hposition.trans hplace.symm, hlink⟩
            · exact .inr ⟨b, by omega, hfound, hposition, hlink⟩

/-! ## Building the word -/

/-- The items of the whole word. -/
def items (blueprint : CifBlueprint) : List Item := blueprint.wordItems wordBits 0

theorem names_items (hinWord : ∀ entry ∈ blueprint.entries, entry.bit < 32)
    (hbits : (blueprint.entries.map CifEntry.bit).Nodup) :
    (blueprint.items.filterMap Item.name?).Perm (CifEntry.names blueprint.entries) := by
  have hsorted : (List.range wordBits).reverse.filterMap blueprint.wordItem? =
      blueprint.sorted.filterMap CifEntry.item? := by
    rw [sorted, List.filterMap_filterMap]
    rfl
  rw [items, filterMap_wordItems fun _ => rfl, hsorted, ← CifEntry.filterMap_item?_name?]
  exact ((sorted_perm hinWord hbits).filterMap _).filterMap _

/-- What every item of a word is: wide enough to exist, and neither a structure nor gated.  An
enable is one bit wide and names a field of its own name. -/
theorem forall_mem_items {item : Item} (h : item ∈ blueprint.items) :
    0 < item.bits ∧ item.record? = none ∧
      (∀ enable, item = .enable enable → enable.bits = 1 ∧ enable.field = some enable.name) ∧
      ∀ field, item = .field field → field.enabledBy = none := by
  refine forall_mem_wordItems (P := fun item => 0 < item.bits ∧ item.record? = none ∧
      (∀ enable, item = .enable enable → enable.bits = 1 ∧ enable.field = some enable.name) ∧
      ∀ field, item = .field field → field.enabledBy = none) ?_ ?_ wordBits 0 item h
  · intro bits hpos
    exact ⟨hpos, rfl, nofun, nofun⟩
  · intro bit item hitem
    rw [wordItem?_eq, Option.bind_eq_some_iff] at hitem
    obtain ⟨entry, _, hitem⟩ := hitem
    obtain ⟨hbits, _, _, hrecord, henable, hfield⟩ := CifEntry.item?_eq_some hitem
    refine ⟨by omega, hrecord, ?_, hfield⟩
    rintro enable rfl
    exact ⟨hbits, henable enable rfl⟩

theorem not_pairs (hnames : (blueprint.items.filterMap Item.name?).Nodup) (enable : Enable)
    (field : Field) : ¬ Linkage.Pairs blueprint.items enable field := by
  rintro ⟨henable, hfield, hnamed⟩
  obtain ⟨_, _, haimed, _⟩ := forall_mem_items henable
  obtain ⟨_, _, _, hopen⟩ := forall_mem_items hfield
  rw [(haimed enable rfl).2, hopen field rfl] at hnamed
  have hname : enable.name = field.name := by simpa using hnamed
  have hsame := Item.eq_of_name? hnames henable hfield (congrArg some hname) rfl
  cases hsame

theorem linkable_items (hnames : (blueprint.items.filterMap Item.name?).Nodup) :
    Linkage.Linkable blueprint.items := by
  have hopen {field : Field} (hfield : Item.field field ∈ blueprint.items) :
      field.enabledBy = none := (forall_mem_items hfield).2.2.2 field rfl
  constructor
  · constructor
    · intro field name hfield hgate
      cases (hopen hfield).symm.trans hgate
    · intro f _ name hf _ hgate
      cases (hopen hf).symm.trans hgate
    · intro field enable hfield _ hgate
      cases (hopen hfield).symm.trans hgate
  · constructor
    · intro enable henable _
      exact ⟨_, ((forall_mem_items henable).2.2.1 enable rfl).2⟩
    · intro _ field _ _ hfield _
      exact hopen hfield
    · intro d _ field hd _ _ _ hfield hnamed _
      exact absurd ⟨hd, hfield, .inr hnamed⟩ (not_pairs hnames d field)

theorem map_tie_items (hnames : (blueprint.items.filterMap Item.name?).Nodup) :
    blueprint.items.map (Linkage.tie blueprint.items) = blueprint.items := by
  refine (List.map_congr_left ?_).trans (List.map_id _)
  intro item hitem
  cases item with
  | reserved _ => rfl
  | enable enable =>
      exact congrArg Item.enable (Linkage.tieEnable_eq_self hitem (not_pairs hnames enable))
  | field field =>
      exact congrArg Item.field
        (Linkage.tieField_eq_self hitem fun enable => not_pairs hnames enable field)

theorem foldlM_append {layout : String} {placed items : List Item}
    (hwidth : ∀ item ∈ items, item.bits ≤ item.maxBits)
    (htotal : Item.totalBits (placed ++ items) ≤ Layout.maxBits) :
    (items.map Step.append).foldlM (Blueprint.placeStep layout) placed = .ok (placed ++ items) := by
  induction items generalizing placed with
  | nil => rw [List.append_nil]; rfl
  | cons item items ih =>
      obtain ⟨hitem, hrest⟩ := List.forall_mem_cons.mp hwidth
      have hfits : Item.totalBits placed + item.bits ≤ Layout.maxBits := by
        rw [Item.totalBits_append, Item.totalBits] at htotal
        omega
      have hstep : Blueprint.placeStep layout placed (.append item) = .ok (placed ++ [item]) :=
        Blueprint.placeItem_eq_ok.mpr ⟨hitem, hfits, rfl⟩
      have hsplit : placed ++ item :: items = placed ++ [item] ++ items := by simp
      rw [List.map_cons, List.foldlM_cons, hstep, hsplit]
      exact ih hrest (hsplit ▸ htotal)

theorem place_word : blueprint.word.place = .ok blueprint.items := by
  have htotal : Item.totalBits blueprint.items = 32 := totalBits_wordItems wordBits 0
  apply foldlM_append
  · intro item hitem
    have hbits : item.bits ≤ 32 := htotal ▸ Item.bits_le_totalBits hitem
    refine hbits.trans ?_
    cases item with
    | enable _ => exact (by decide : 32 ≤ Enable.maxBits)
    | field _ => exact (by decide : 32 ≤ Layout.maxBits)
    | reserved _ => exact (by decide : 32 ≤ Layout.maxBits)
  · exact htotal.trans_le (by decide)

/-- The layout of the word. -/
def wordLayout (blueprint : CifBlueprint) : Layout :=
  Blueprint.laidOut (blueprint.name ++ "_enables") blueprint.items false

/-- A word is built exactly when its items have distinct names, and linking changes nothing. -/
theorem build_word_eq_ok {layout : Layout} :
    blueprint.word.build = .ok layout ↔
      (blueprint.items.filterMap Item.name?).Nodup ∧ layout = blueprint.wordLayout := by
  have hwide : ∀ item ∈ blueprint.items, 0 < item.bits := fun item hitem =>
    (forall_mem_items hitem).1
  rw [Blueprint.build_iff]
  simp only [place_word, Except.ok.injEq, exists_eq_left', Blueprint.freeze_eq_ok]
  constructor
  · rintro ⟨⟨⟨_, hnames⟩, _, rfl⟩, _⟩
    rw [map_tie_items hnames]
    exact ⟨hnames, rfl⟩
  · rintro ⟨hnames, rfl⟩
    refine ⟨⟨⟨hwide, hnames⟩, linkable_items hnames, ?_⟩, rfl⟩
    rw [map_tie_items hnames]
    rfl

theorem built_word {layout : Layout} (h : blueprint.word.build = .ok layout) : layout.Built := by
  refine .fresh rfl ?_ h
  intro step hstep inner hinner
  obtain ⟨item, hitem, rfl⟩ := List.mem_map.mp hstep
  cases (forall_mem_items hitem).2.1.symm.trans hinner

end CifBlueprint

end RadioPacket
