import RadioPacket.Proofs.Container.Reading

/-!
# What is decoded, and what is refused

Bytes that reach as far as a structure decode unless one of its present enumerated fields holds a
number that no symbol has.  The present leaf fields are listed in the order in which they are read,
at the bits where they stand, and the first one without a declared value is the one that is named.
-/

namespace RadioPacket

/-- A leaf field that is present in some bytes, and its first bit. -/
structure LeafSite where
  field : String
  type : LeafType
  position : Nat

namespace LeafSite

/-- The number that the bits of the field write. -/
def raw (data : Bytes) (site : LeafSite) : Nat :=
  Bits.toNat (Bits.window data site.position site.type.bits)

/-- A symbol of the field's enumeration has the number; every number suits a field of another
kind. -/
def isDeclared (data : Bytes) (site : LeafSite) : Bool :=
  match site.type.table? with
  | none => true
  | some table => (table.symbol? (site.raw data)).isSome

/-- The error of a field without a declared value. -/
def fault? (data : Bytes) (site : LeafSite) : Option UnpackError :=
  match site.type.table? with
  | none => none
  | some table =>
      if (table.symbol? (site.raw data)).isSome then none
      else some (.invalidValue site.field (.notMember table.name (toString (site.raw data))))

end LeafSite

mutual

/-- The leaf fields that are present in some bytes, in depth-first order of the slots. -/
def Layout.presentLeaves : Layout → Bytes → (base : Nat) → List LeafSite
  | ⟨_, slots, _, _, _⟩, data, base => Slot.presentLeavesAll slots slots data base
termination_by structural layout => layout

/-- The present leaf fields of some slots among `all` slots. -/
def Slot.presentLeavesAll : (slots all : List Slot) → Bytes → (base : Nat) → List LeafSite
  | [], _, _, _ => []
  | ⟨.field ⟨name, .leaf type, _, _, _, _⟩, position, link⟩ :: slots, all, data, base =>
      (if Slot.opens all data base link then [⟨name, type, base + position.offset⟩] else []) ++
        Slot.presentLeavesAll slots all data base
  | ⟨.field ⟨_, .record layout, _, _, _, _⟩, position, link⟩ :: slots, all, data, base =>
      (if Slot.opens all data base link then layout.presentLeaves data (base + position.offset)
        else []) ++
        Slot.presentLeavesAll slots all data base
  | _ :: slots, all, data, base => Slot.presentLeavesAll slots all data base
termination_by structural slots => slots

end

/-- The present leaf fields of one slot. -/
def Slot.presentLeaves (all : List Slot) (data : Bytes) (base : Nat) (slot : Slot) :
    List LeafSite :=
  match slot.item with
  | .field field =>
      if Slot.opens all data base slot.link then
        match field.type with
        | .leaf type => [⟨field.name, type, base + slot.position.offset⟩]
        | .record layout => layout.presentLeaves data (base + slot.position.offset)
      else []
  | _ => []

theorem Slot.presentLeavesAll_eq_flatMap (slots all : List Slot) (data : Bytes) (base : Nat) :
    presentLeavesAll slots all data base = slots.flatMap (presentLeaves all data base) := by
  induction slots with
  | nil => rfl
  | cons slot slots ih =>
      rw [List.flatMap_cons, ← ih]
      obtain ⟨item, position, link⟩ := slot
      rcases item with ⟨name, type, mode, enabledBy, editable, bit⟩ | enable | run
      · cases type with
        | leaf type => rfl
        | record layout => rfl
      · rfl
      · rfl

theorem Layout.presentLeaves_eq_flatMap (layout : Layout) (data : Bytes) (base : Nat) :
    layout.presentLeaves data base =
      layout.slots.flatMap (Slot.presentLeaves layout.slots data base) := by
  obtain ⟨name, slots, bits, warnings, dynamicSize⟩ := layout
  exact Slot.presentLeavesAll_eq_flatMap slots slots data base

/-- Decoding a number that the width can write is refused only where no symbol has it. -/
theorem LeafType.error?_decode {type : LeafType} {raw : Nat} (hraw : raw < 2 ^ type.bits) :
    Fallible.error? (type.decode raw) =
      match type.table? with
      | none => none
      | some table =>
          if (table.symbol? raw).isSome then none
          else some (.notMember table.name (toString raw)) := by
  simp only [decode, table?, Nat.mod_eq_of_lt hraw]
  cases type.shape with
  | boolean _ => rfl
  | integer _ signed =>
      cases signed with
      | true => rfl
      | false => rfl
  | fixedPoint _ _ _ => rfl
  | nonZeroSize _ => rfl
  | enumeration table =>
      simp only
      by_cases hmember : (table.symbol? raw).isSome = true
      · rw [if_pos hmember, if_pos hmember]
        rfl
      · rw [if_neg hmember, if_neg hmember]
        rfl

/-- A present leaf field is refused exactly for its own fault. -/
theorem LeafSite.error?_readAt {data : Bytes} (site : LeafSite)
    (hfit : site.position + site.type.bits ≤ 8 * data.size) :
    Fallible.error? (site.type.readAt data site.position site.field) = site.fault? data := by
  have hraw : site.raw data < 2 ^ site.type.bits := by
    have hlt := Bits.toNat_lt (Bits.window data site.position site.type.bits)
    rw [Bits.length_window] at hlt
    exact hlt
  rw [LeafType.readAt_eq site.field site.type hfit, Fallible.error?_mapError]
  change (Fallible.error? (site.type.decode (site.raw data))).map _ = _
  rw [LeafType.error?_decode hraw, fault?]
  cases site.type.table? with
  | none => rfl
  | some table =>
      simp only
      split
      · rfl
      · rfl

namespace Layout

theorem Sound.error?_readCell {layout : Layout} (h : layout.Sound) {data : Bytes} {base : Nat}
    (hfit : base + layout.bits ≤ 8 * data.size) {slot : Slot} (hslot : slot ∈ layout.slots)
    (hinner : ∀ inner, slot.item.record? = some inner → ∀ position,
      position + inner.bits ≤ 8 * data.size →
        Fallible.error? (inner.readAt data position) =
          (inner.presentLeaves data position).findSome? (LeafSite.fault? data)) :
    Fallible.error? (slot.readCell layout.slots data base) =
      (slot.presentLeaves layout.slots data base).findSome? (LeafSite.fault? data) := by
  obtain ⟨item, position, link⟩ := slot
  rcases item with ⟨name, type, mode, enabledBy, editable, bit⟩ | enable | run
  · simp only [Slot.readCell, Slot.presentLeaves]
    by_cases hopen : Slot.opens layout.slots data base link = true
    · rw [if_pos hopen, if_pos hopen]
      cases type with
      | leaf type =>
          have hend : position.offset + type.bits ≤ layout.bits := h.fits_field hslot rfl
          have hbits : base + position.offset + type.bits ≤ 8 * data.size := by omega
          have hleaf := LeafSite.error?_readAt ⟨name, type, base + position.offset⟩ hbits
          rw [FieldType.readAt, Fallible.error?_map, List.findSome?_singleton]
          exact hleaf
      | record inner =>
          have hend : position.offset + inner.bits ≤ layout.bits := h.fits_field hslot rfl
          have hbits : base + position.offset + inner.bits ≤ 8 * data.size := by omega
          rw [FieldType.readAt, Fallible.error?_map]
          exact hinner inner rfl (base + position.offset) hbits
    · rw [if_neg hopen, if_neg hopen]
      rfl
  · rfl
  · rfl

/-- Reading a structure fails with the fault of its first present leaf field that has one. -/
theorem Built.error?_readAt {layout : Layout} (h : layout.Built) (data : Bytes) :
    ∀ base, base + layout.bits ≤ 8 * data.size →
      Fallible.error? (layout.readAt data base) =
        (layout.presentLeaves data base).findSome? (LeafSite.fault? data) := by
  refine h.induct ?_
  intro layout h ih base hfit
  rw [h.sound.readAt_eq_mapM hfit, presentLeaves_eq_flatMap]
  apply Fallible.error?_mapM
  intro slot hslot
  exact h.sound.error?_readCell hfit hslot (ih slot hslot)

theorem Built.error?_unpack {layout : Layout} (h : layout.Built) {data : Bytes}
    (hsize : layout.bytes ≤ data.size) :
    Fallible.error? (Container.unpack layout data) =
      (layout.presentLeaves data 0).findSome? (LeafSite.fault? data) := by
  rw [Container.unpack, if_neg (by omega), Fallible.error?_map,
    h.error?_readAt data 0 (fits_of_bytes_le hsize)]

end Layout

namespace LeafSite

theorem fault?_eq_none {data : Bytes} {site : LeafSite} :
    site.fault? data = none ↔ site.isDeclared data = true := by
  rw [fault?, isDeclared]
  cases site.type.table? with
  | none => simp
  | some table =>
      simp only
      split
      · next hmember => simp [hmember]
      · next hmember => simp [hmember]

theorem eq_invalidValue_of_fault? {data : Bytes} {site : LeafSite} {error : UnpackError}
    (h : site.fault? data = some error) : ∃ cause, error = .invalidValue site.field cause := by
  rw [fault?] at h
  cases htable : site.type.table? with
  | none =>
      rw [htable] at h
      cases h
  | some table =>
      rw [htable] at h
      simp only at h
      split at h
      · cases h
      · cases h
        exact ⟨_, rfl⟩

/-- The first site without a declared value is the first one with a fault. -/
theorem findSome?_fault? {data : Bytes} {sites : List LeafSite} {site : LeafSite}
    (h : sites.find? (fun site => !site.isDeclared data) = some site) :
    ∃ table, site.type.table? = some table ∧
      sites.findSome? (fault? data) =
        some (.invalidValue site.field (.notMember table.name (toString (site.raw data)))) := by
  induction sites with
  | nil => cases h
  | cons first sites ih =>
      rw [List.find?_cons] at h
      rw [List.findSome?_cons]
      cases hdeclared : first.isDeclared data with
      | true =>
          have hnone : first.fault? data = none := fault?_eq_none.mpr hdeclared
          rw [hdeclared] at h
          rw [hnone]
          exact ih h
      | false =>
          rw [hdeclared] at h
          cases h
          rw [isDeclared] at hdeclared
          rw [fault?]
          cases htable : site.type.table? with
          | none =>
              rw [htable] at hdeclared
              cases hdeclared
          | some table =>
              rw [htable] at hdeclared
              simp only at hdeclared
              refine ⟨table, rfl, ?_⟩
              simp [hdeclared]

end LeafSite

namespace Layout

/-- Bytes are refused when they are too short, and otherwise exactly when a present enumerated
field holds no declared value; then the first such field is named.  No read of bits ever fails.

That rests on the check of leaf types: a shape that is wider than the check allows cannot be read,
wherever it stands and however many bytes there are. -/
theorem Built.unpack_outcome {layout : Layout} (h : layout.Built) (data : Bytes) :
    ((∃ required actual, Container.unpack layout data = .error (.packetTooShort required actual)) ↔
      data.size < layout.bytes) ∧
    (data.size < layout.bytes →
      Container.unpack layout data = .error (.packetTooShort layout.bytes data.size)) ∧
    (layout.bytes ≤ data.size →
      ((∃ c, Container.unpack layout data = .ok c) ↔
        ∀ site ∈ layout.presentLeaves data 0, site.isDeclared data = true) ∧
      ∀ site, (layout.presentLeaves data 0).find? (fun site => !site.isDeclared data) =
          some site →
        ∃ table, site.type.table? = some table ∧
          Container.unpack layout data = .error
            (.invalidValue site.field (.notMember table.name (toString (site.raw data))))) ∧
    (∀ cause, Container.unpack layout data ≠ .error (.bits cause)) ∧
    ∀ (shape : LeafShape) (position : Nat), 64 < shape.bits →
      Bits.readPattern data position shape.bits = .error (.bits .tooManyBits) := by
  have hshort : data.size < layout.bytes →
      Container.unpack layout data = .error (.packetTooShort layout.bytes data.size) := by
    intro hlt
    rw [Container.unpack, if_pos hlt]
  -- Once the bytes suffice, the only error left is that of a value.
  have hlong : ∀ error, layout.bytes ≤ data.size → Container.unpack layout data = .error error →
      ∃ field cause, error = .invalidValue field cause := by
    intro error hsize herror
    have hfault := h.error?_unpack hsize
    rw [herror] at hfault
    obtain ⟨site, _, hsite⟩ := List.exists_of_findSome?_eq_some hfault.symm
    exact ⟨site.field, LeafSite.eq_invalidValue_of_fault? hsite⟩
  refine ⟨⟨?_, fun hlt => ⟨_, _, hshort hlt⟩⟩, hshort, fun hsize => ⟨?_, ?_⟩, ?_,
    fun _ _ hwide => Bits.readPattern_of_wide hwide⟩
  · rintro ⟨required, actual, herror⟩
    by_contra hsize
    obtain ⟨field, cause, hkind⟩ := hlong _ (Nat.le_of_not_lt hsize) herror
    cases hkind
  · rw [← Fallible.error?_eq_none, h.error?_unpack hsize, List.findSome?_eq_none_iff]
    constructor
    · intro hnone site hsite
      exact LeafSite.fault?_eq_none.mp (hnone site hsite)
    · intro hdeclared site hsite
      exact LeafSite.fault?_eq_none.mpr (hdeclared site hsite)
  · intro site hfirst
    obtain ⟨table, htable, hfault⟩ := LeafSite.findSome?_fault? hfirst
    rw [← h.error?_unpack hsize, Fallible.error?_eq_some] at hfault
    exact ⟨table, htable, hfault⟩
  · intro cause herror
    by_cases hlt : data.size < layout.bytes
    · rw [hshort hlt] at herror
      cases herror
    · obtain ⟨field, reason, hkind⟩ := hlong _ (Nat.le_of_not_lt hlt) herror
      cases hkind

namespace Sample

/-- The gate is set and the three bits of the kind are zero, which no symbol means.  With the gate
reset the same bits are not looked at. -/
theorem unpack_undeclared_kind :
    fullLayout.Built ∧
      Container.unpack fullLayout #[128, 0] =
        .error (.invalidValue "kind" (.notMember "kind" "0")) ∧
      ∃ c, Container.unpack fullLayout #[0, 0] = .ok c := by
  obtain ⟨_, _, hclosed, _⟩ := Built.unpack_outcome built_fullLayout #[0, 0]
  obtain ⟨_, _, hopen, _⟩ := Built.unpack_outcome built_fullLayout #[128, 0]
  obtain ⟨hok, _⟩ := hclosed (by decide)
  obtain ⟨_, hfirst⟩ := hopen (by decide)
  obtain ⟨table, htable, herror⟩ := hfirst ⟨"kind", kind, 3⟩ rfl
  cases htable
  refine ⟨built_fullLayout, herror, hok.mpr ?_⟩
  intro site hsite
  cases hsite

end Sample

end Layout

end RadioPacket
