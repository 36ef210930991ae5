import RadioPacket.Proofs.Layout.Carrying
import RadioPacket.Proofs.Layout.Matching

/-!
# What a derived structure shares with its base

Steps that append no enables leave the fields and enables of the base where they are and as they
are.  Rebinding splits reserved runs and shifts the indices of the slots behind them, but moves no
bit; and the pairs of the base are complete, so no field of the base gets another gate.
-/

namespace RadioPacket

namespace Cursor

variable {layout : String} {placed next : List Item} {step : Step}

theorem mem_lay_of_placeStep (h : Blueprint.placeStep layout placed step = .ok next)
    {entry : Placed} (hsolid : entry.item.isReserved = false)
    (hentry : entry ∈ lay .start placed) : entry ∈ lay .start next := by
  cases step with
  | append item =>
      obtain ⟨_, _, rfl⟩ := Blueprint.placeItem_eq_ok.mp h
      rw [lay_append]
      exact List.mem_append_left _ hentry
  | rebind position field =>
      obtain ⟨before, run, inner, after, rfl, _, hfits, rfl⟩ := Blueprint.placeRebound_eq_ok h
      rw [lay_rebound hfits]
      rw [lay_append, List.mem_append, start_add, lay, List.mem_cons] at hentry
      rcases hentry with hbefore | rfl | hafter
      · simp only [List.mem_append]
        exact .inl (.inl (.inl (.inl hbefore)))
      · cases hsolid
      · exact List.mem_append_right _ hafter

theorem mem_lay_of_place {steps : List Step} {base : List Item}
    (h : steps.foldlM (Blueprint.placeStep layout) base = .ok placed) {entry : Placed}
    (hsolid : entry.item.isReserved = false) (hentry : entry ∈ lay .start base) :
    entry ∈ lay .start placed := by
  apply Fallible.foldlM_invariant (P := fun items => entry ∈ lay .start items) h hentry
  intro step _ items next hold hstep
  exact mem_lay_of_placeStep hstep hsolid hold

theorem lay_map {change : Item → Item} (hchange : ∀ item, (change item).untied = item.untied)
    (position : Position) (items : List Item) :
    lay position (items.map change) =
      (lay position items).map fun entry => ⟨change entry.item, entry.start⟩ := by
  induction items generalizing position with
  | nil => rfl
  | cons item items ih =>
      rw [List.map_cons, lay, lay, ih, Item.bits_change hchange]
      rfl

end Cursor

namespace Blueprint

theorem totalBits_le_place {layout : String} {steps : List Step} {base placed : List Item}
    (h : steps.foldlM (placeStep layout) base = .ok placed) :
    Item.totalBits base ≤ Item.totalBits placed := by
  apply Fallible.foldlM_invariant (P := fun items => Item.totalBits base ≤ Item.totalBits items) h
    le_rfl
  intro step _ items next hold hstep
  refine hold.trans ?_
  cases step with
  | append item =>
      obtain ⟨_, _, rfl⟩ := placeItem_eq_ok.mp hstep
      rw [Item.totalBits_append]
      exact Nat.le_add_right _ _
  | rebind position field =>
      obtain ⟨before, run, inner, after, rfl, _, hfits, rfl⟩ := placeRebound_eq_ok hstep
      have hfield : (Item.field field).bits = field.bits := rfl
      have hrun : (Item.reserved run).bits = run.bits := rfl
      simp only [Item.totalBits_append, Item.totalBits, Item.totalBits_reservedRun, hfield, hrun]
      omega

end Blueprint

/-- The step brings in no enable. -/
def Step.AddsNoEnable (step : Step) : Prop := ∀ enable, step.item ≠ .enable enable

namespace Linkage

/-- Among items that hold the fields and enables of settled ones and no other enables, the settled
ones are left alone. -/
theorem tie_eq_self_of_settled {base items : List Item} (hbase : Settled base)
    (hcoherent : Coherent items) (hkept : ∀ item ∈ base, item.isReserved = false → item ∈ items)
    (henables : ∀ enable, Item.enable enable ∈ items → Item.enable enable ∈ base) {item : Item}
    (hitem : item ∈ base) : tie items item = item := by
  cases item with
  | reserved _ => rfl
  | enable enable =>
      apply congrArg Item.enable
      have hmem := hkept _ hitem rfl
      obtain ⟨name, hname⟩ := hbase.aimed hitem
      by_cases hpaired : ∃ field, Pairs items enable field
      · obtain ⟨field, hpair⟩ := hpaired
        have hnamed : enable.field = some field.name := by
          rcases hpair.2.2 with hclaim | hnamed
          · refine (hcoherent.agrees hpair hclaim).resolve_left ?_
            rw [hname]
            nofun
          · exact hnamed
        rw [hcoherent.tieEnable_eq hpair, ← hnamed]
      · exact tieEnable_eq_self hmem (not_exists.mp hpaired)
  | field field =>
      apply congrArg Item.field
      have hmem := hkept _ hitem rfl
      by_cases hpaired : ∃ enable, Pairs items enable field
      · obtain ⟨enable, hpair⟩ := hpaired
        have hold : Pairs base enable field := ⟨henables _ hpair.1, hitem, hpair.2.2⟩
        exact hcoherent.tieField_gated hmem (hbase.agree hold).1
      · exact tieField_eq_self hmem (not_exists.mp hpaired)

end Linkage

namespace Layout

variable {layout base derived : Layout}

theorem Built.linked (h : layout.Built) : layout.Linked := by
  cases h with
  | fresh _ _ hbuild => exact Blueprint.linked_of_build hbuild
  | derived _ _ _ hbuild => exact Blueprint.linked_of_build hbuild

theorem Sound.find?_eq_some (h : layout.Sound) {name : String} {slot : Slot} :
    layout.find? name = some slot ↔ slot ∈ layout.slots ∧ slot.name? = some name := by
  rw [find?, Option.bind_eq_some_iff]
  constructor
  · rintro ⟨i, hindex, hslot⟩
    obtain ⟨other, hother, hname⟩ := h.index?_eq_some.mp hindex
    obtain rfl := Option.some.inj (hother.symm.trans hslot)
    exact ⟨List.mem_of_getElem? hslot, hname⟩
  · rintro ⟨hslot, hname⟩
    obtain ⟨i, hi⟩ := List.mem_iff_getElem?.mp hslot
    exact ⟨i, h.index?_eq_some.mpr ⟨slot, hi, hname⟩, hi⟩

theorem Sound.mem_lay (h : layout.Sound) {entry : Placed} :
    entry ∈ Cursor.lay .start layout.items ↔
      ∃ slot ∈ layout.slots, slot.item = entry.item ∧ slot.position = entry.start := by
  have hlay : Cursor.lay .start layout.items =
      layout.slots.map fun slot => (⟨slot.item, slot.position⟩ : Placed) := h.tile.map_placed.symm
  rw [hlay, List.mem_map]
  constructor
  · rintro ⟨slot, hslot, rfl⟩
    exact ⟨slot, hslot, rfl, rfl⟩
  · rintro ⟨slot, hslot, hitem, hposition⟩
    exact ⟨slot, hslot, by rw [hitem, hposition]⟩

/-- The fields and enables of one layout stand in another one as well, at the same positions. -/
def Embeds (base derived : Layout) : Prop :=
  ∀ slot ∈ base.slots, slot.item.isReserved = false →
    ∃ other ∈ derived.slots, other.item = slot.item ∧ other.position = slot.position

/-- A layout derived from a linked one without new enables embeds it. -/
theorem Linked.embeds (h : base.Linked) (hbase : base.Sound) (hderived : derived.Sound)
    {blueprint : Blueprint} (hstart : blueprint.base = base.items)
    (hsteps : ∀ step ∈ blueprint.steps, step.AddsNoEnable)
    (hbuild : blueprint.build = .ok derived) : base.Embeds derived := by
  obtain ⟨⟨placed, hplaced, hfreeze⟩, _⟩ := Blueprint.build_iff.mp hbuild
  rw [Blueprint.place, hstart] at hplaced
  obtain ⟨⟨_, hnames⟩, hlinkable, hlayout⟩ := Blueprint.freeze_eq_ok.mp hfreeze
  have hitems : derived.items = placed.map (Linkage.tie placed) := by
    rw [hlayout, Blueprint.items_laidOut]
  have henables : ∀ enable, Item.enable enable ∈ placed → Item.enable enable ∈ base.items := by
    intro enable henable
    have hmem := (Blueprint.solid_perm_of_place hplaced).mem_iff.mp
      (Item.mem_solid.mpr ⟨henable, rfl⟩)
    rcases List.mem_append.mp hmem with hold | hnew
    · exact (Item.mem_solid.mp hold).1
    · obtain ⟨step, hstep, hitem⟩ := List.mem_map.mp (Item.mem_solid.mp hnew).1
      exact absurd hitem (hsteps step hstep enable)
  intro slot hslot hsolid
  have hkept : Linkage.tie placed slot.item = slot.item :=
    Linkage.tie_eq_self_of_settled h.settled (hlinkable.coherent hnames)
      (fun item => Blueprint.mem_of_place hplaced) henables (List.mem_map_of_mem hslot)
  have hentry : (⟨slot.item, slot.position⟩ : Placed) ∈ Cursor.lay .start placed :=
    Cursor.mem_lay_of_place hplaced hsolid (hbase.mem_lay.mpr ⟨slot, hslot, rfl, rfl⟩)
  have hderivedentry : (⟨slot.item, slot.position⟩ : Placed) ∈ Cursor.lay .start derived.items := by
    rw [hitems, Cursor.lay_map (Linkage.untied_tie placed), List.mem_map]
    exact ⟨_, hentry, by rw [hkept]⟩
  exact hderived.mem_lay.mp hderivedentry

theorem bytes_le_of_build (hbase : base.Sound) {blueprint : Blueprint}
    (hstart : blueprint.base = base.items) (hbuild : blueprint.build = .ok derived) :
    base.bytes ≤ derived.bytes := by
  obtain ⟨placed, _, hplaced, _, _, _, hbits⟩ := Blueprint.build_eq_ok hbuild
  have hle := Blueprint.totalBits_le_place hplaced
  rw [hstart, hbase.total, ← hbits] at hle
  rw [bytes, bytes, Bits.bytesFor, Bits.bytesFor]
  omega

/-- In an embedded layout the link of a field leads to the same enable, or nowhere in both. -/
theorem Linked.link_cases (hbase : base.Linked) (hderived : derived.Linked)
    (h : base.Embeds derived) {slot other : Slot} (hslot : slot ∈ base.slots)
    (hother : other ∈ derived.slots) (hitem : other.item = slot.item) {field : Field}
    (hfield : slot.item = .field field) :
    (slot.link = none ∧ other.link = none) ∨
      ∃ (i j : Nat) (gate copy : Slot), slot.link = some i ∧ base.slots[i]? = some gate ∧
        other.link = some j ∧ derived.slots[j]? = some copy ∧
          copy.item = gate.item ∧ copy.position = gate.position := by
  have hotherfield : other.item = .field field := hitem.trans hfield
  cases hlink : slot.link with
  | none =>
      refine .inl ⟨rfl, ?_⟩
      by_contra hgated
      obtain ⟨j, hj⟩ := Option.ne_none_iff_exists'.mp hgated
      obtain ⟨_, _, hcouple⟩ := (hderived.link_eq_some hother).mp hj
      rw [hotherfield] at hcouple
      obtain ⟨enable, _, hpair⟩ := Linkage.couple_field.mp hcouple
      refine hbase.matched.field_linked slot hslot field hfield ?_ hlink
      rw [(hderived.settled.agree hpair).1]
      nofun
  | some i =>
      obtain ⟨gate, hgate, hcouple⟩ := (hbase.link_eq_some hslot).mp hlink
      rw [hfield] at hcouple
      obtain ⟨enable, henable, hpair⟩ := Linkage.couple_field.mp hcouple
      have hgatesolid : gate.item.isReserved = false := by
        rw [henable]
        rfl
      obtain ⟨copy, hcopy, hcopyitem, hposition⟩ := h gate (List.mem_of_getElem? hgate) hgatesolid
      obtain ⟨j, hj⟩ := List.mem_iff_getElem?.mp hcopy
      have hcopyenable : copy.item = .enable enable := hcopyitem.trans henable
      have hcopypair : Linkage.Pairs derived.items enable field :=
        ⟨hcopyenable ▸ List.mem_map_of_mem hcopy, hotherfield ▸ List.mem_map_of_mem hother,
          hpair.2.2⟩
      refine .inr ⟨i, j, gate, copy, rfl, hgate, ?_, hj, hcopyitem, hposition⟩
      rw [hderived.link_eq_some hother, hotherfield]
      exact ⟨copy, hj, Linkage.couple_field.mpr ⟨enable, hcopyenable, hcopypair⟩⟩

/-- The fields and enables of one layout are found in another one under their names, at the same
positions, and the fields with the same gates. -/
structure Shares (base derived : Layout) : Prop where
  slot : ∀ name slot, base.find? name = some slot → slot.item.isReserved = false →
    ∃ other, derived.find? name = some other ∧ other.item = slot.item ∧
      other.position = slot.position
  gate : ∀ name slot field, base.find? name = some slot → slot.item = .field field →
    (derived.enableOf? name).map (fun gate => (gate.item, gate.position)) =
      (base.enableOf? name).map fun gate => (gate.item, gate.position)

theorem Embeds.find? (h : base.Embeds derived) (hbase : base.Sound) (hderived : derived.Sound)
    {name : String} {slot : Slot} (hfind : base.find? name = some slot)
    (hsolid : slot.item.isReserved = false) :
    ∃ other, derived.find? name = some other ∧ other.item = slot.item ∧
      other.position = slot.position := by
  obtain ⟨hslot, hname⟩ := hbase.find?_eq_some.mp hfind
  obtain ⟨other, hother, hitem, hposition⟩ := h slot hslot hsolid
  have hothername : other.name? = some name := by
    rw [← hname, Slot.name?, hitem]
    rfl
  exact ⟨other, hderived.find?_eq_some.mpr ⟨hother, hothername⟩, hitem, hposition⟩

theorem enableOf?_eq {name : String} {slot : Slot} {field : Field}
    (hfind : layout.find? name = some slot) (hfield : slot.item = .field field) :
    layout.enableOf? name = slot.link.bind layout.slot? := by
  simp only [enableOf?, hfind, hfield, Item.field?, Option.bind_eq_bind, Option.bind_some]

theorem Embeds.shares (h : base.Embeds derived) (hbase : base.Built) (hderived : derived.Built) :
    base.Shares derived := by
  constructor
  · intro name slot hfind hsolid
    exact h.find? hbase.sound hderived.sound hfind hsolid
  · intro name slot field hfind hfield
    have hsolid : slot.item.isReserved = false := by
      rw [hfield]
      rfl
    obtain ⟨other, hother, hitem, _⟩ := h.find? hbase.sound hderived.sound hfind hsolid
    rw [enableOf?_eq hfind hfield, enableOf?_eq hother (hitem.trans hfield)]
    rcases hbase.linked.link_cases hderived.linked h (hbase.sound.find?_eq_some.mp hfind).1
        (hderived.sound.find?_eq_some.mp hother).1 hitem hfield with
      ⟨hlink, hotherlink⟩ | ⟨i, j, gate, copy, hlink, hgate, hotherlink, hcopy, hsame, hplace⟩
    · rw [hlink, hotherlink]
      rfl
    · simp only [hlink, hotherlink, Option.bind_some, slot?, hgate, hcopy, Option.map_some, hsame,
        hplace]

end Layout

end RadioPacket
