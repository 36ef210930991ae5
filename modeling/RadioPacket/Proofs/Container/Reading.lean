import RadioPacket.Proofs.Bits.Window
import RadioPacket.Proofs.Container.Cells

/-!
# Reading slot by slot

A structure is read in two passes, first its enables and then its fields.  When the bytes reach as
far as the structure, no read of bits fails, and the two passes are one run over the slots in which
each slot is read by itself: the presence of a field follows from the bits of its enable.
-/

namespace RadioPacket

namespace Slot

/-- A field with the given link is present in some bytes: it has no enable, or the bits of its
enable are not all zero. -/
def opens (slots : List Slot) (data : Bytes) (base : Nat) (link : Option Nat) : Bool :=
  match link with
  | none => true
  | some index =>
      match slots[index]? with
      | some gate => (Bits.window data (base + gate.position.offset) gate.bits).any id
      | none => false

/-- The cell of a slot when only enables are read. -/
def gateCell (slots : List Slot) (data : Bytes) (base : Nat) (slot : Slot) : Cell :=
  match slot.item with
  | .enable enable =>
      .enable ((Bits.window data (base + slot.position.offset) enable.bits).any id)
  | _ => slot.freshCell slots

/-- Reads one slot of a structure that starts at bit `base`. -/
def readCell (slots : List Slot) (data : Bytes) (base : Nat) (slot : Slot) :
    Except UnpackError Cell :=
  match slot.item with
  | .field field =>
      if opens slots data base slot.link then
        field.type.readAt field.name field.mode data (base + slot.position.offset)
      else .ok (slot.freshCell slots)
  | _ => .ok (slot.gateCell slots data base)

theorem Tile.fits {start : Nat} {slots : List Slot} (h : Tile start slots) {slot : Slot}
    (hslot : slot ∈ slots) :
    slot.position.offset + slot.bits ≤ start + Item.totalBits (slots.map Slot.item) := by
  induction slots generalizing start with
  | nil => cases hslot
  | cons first rest ih =>
      obtain ⟨hfirst, hrest⟩ := h
      have hbits : first.item.bits = first.bits := rfl
      rw [List.map_cons, Item.totalBits, hbits]
      rcases List.mem_cons.mp hslot with rfl | htail
      · omega
      · have hfits := ih hrest htail
        omega

end Slot

theorem Layout.Sound.fits {layout : Layout} (h : layout.Sound) {slot : Slot}
    (hslot : slot ∈ layout.slots) : slot.position.offset + slot.bits ≤ layout.bits := by
  have hfits := h.tile.fits hslot
  rw [Nat.zero_add] at hfits
  rw [← h.total]
  exact hfits

theorem Layout.Sound.fits_field {layout : Layout} (h : layout.Sound) {slot : Slot}
    (hslot : slot ∈ layout.slots) {field : Field} (hfield : slot.item = .field field) :
    slot.position.offset + field.type.bits ≤ layout.bits := by
  have hfits := h.fits hslot
  rw [Slot.bits, hfield] at hfits
  exact hfits

/-! ## Reading bits -/

theorem Bits.readPattern_of_wide {data : Bytes} {position width : Nat} (hwidth : maxWidth < width) :
    readPattern data position width = .error (.bits .tooManyBits) := by
  rw [readPattern, read, if_pos hwidth]
  rfl

theorem Bits.readPattern_eq_ok {data : Bytes} {position width : Nat} (hwidth : width ≤ maxWidth)
    (hfit : position + width ≤ 8 * data.size) :
    readPattern data position width = .ok (toNat (window data position width)) := by
  rw [readPattern, read_eq_ok hwidth hfit]
  rfl

theorem LeafType.readAt_eq {data : Bytes} {position : Nat} (field : String) (type : LeafType)
    (hfit : position + type.bits ≤ 8 * data.size) :
    type.readAt data position field =
      (type.decode (Bits.toNat (Bits.window data position type.bits))).mapError
        (.invalidValue field) := by
  rw [readAt, Bits.readPattern_eq_ok type.bits_le hfit]
  rfl

namespace Slot

/-! ## Both passes at once -/

section Passes

variable {slots all : List Slot} {data : Bytes} {base : Nat}

theorem readGate_eq_ok {slot : Slot} (hgate : slot.item.GateFits)
    (hfit : base + slot.position.offset + slot.bits ≤ 8 * data.size) :
    slot.readGate data base (slot.freshCell all) = .ok (slot.gateCell all data base) := by
  obtain ⟨item, position, link⟩ := slot
  cases item with
  | field field => rfl
  | enable enable =>
      have hread : Bits.readPattern data (base + position.offset) enable.bits =
          .ok (Bits.toNat (Bits.window data (base + position.offset) enable.bits)) :=
        Bits.readPattern_eq_ok hgate hfit
      simp only [readGate, gateCell, hread, ← Bits.toNat_ne_zero]
      rfl
  | reserved run => rfl

theorem readGates_eq_ok (hgates : ∀ slot ∈ slots, slot.item.GateFits)
    (hfits : ∀ slot ∈ slots, base + slot.position.offset + slot.bits ≤ 8 * data.size) :
    readGates data base slots (slots.map (freshCell all)) =
      .ok (slots.map (gateCell all data base)) := by
  induction slots with
  | nil => rfl
  | cons slot slots ih =>
      have hgate := hgates slot List.mem_cons_self
      have hfit := hfits slot List.mem_cons_self
      have hrest := ih (fun other hother => hgates other (List.mem_cons_of_mem slot hother))
        fun other hother => hfits other (List.mem_cons_of_mem slot hother)
      rw [List.map_cons, readGates_cons, readGate_eq_ok hgate hfit, hrest]
      rfl

/-- The second pass reads each field that the enables open. -/
theorem readFields_eq_mapM {cells : List Cell}
    (hopen : ∀ slot ∈ slots, slot.item.field?.isSome →
      Cell.isOpen cells slot.link = opens all data base slot.link) :
    readFields slots (slots.map (gateCell all data base)) cells data base =
      slots.mapM (readCell all data base) := by
  induction slots with
  | nil => rfl
  | cons slot slots ih =>
      have hrest := ih fun other hother => hopen other (List.mem_cons_of_mem slot hother)
      have hslot : slot.readField cells data base (slot.gateCell all data base) =
          slot.readCell all data base := by
        have hlink := hopen slot List.mem_cons_self
        obtain ⟨item, position, link⟩ := slot
        cases item with
        | field field =>
            simp only [readField, readCell, hlink rfl]
            rfl
        | enable enable => rfl
        | reserved run => rfl
      rw [List.map_cons, readFields_cons, List.mapM_cons, hslot, hrest]

end Passes

end Slot

namespace Layout

variable {layout : Layout} {data : Bytes} {base : Nat}

theorem bits_le_bytes (layout : Layout) : layout.bits ≤ 8 * layout.bytes := by
  rw [bytes, Bits.bytesFor]
  omega

theorem fits_of_bytes_le (h : layout.bytes ≤ data.size) : 0 + layout.bits ≤ 8 * data.size := by
  rw [Nat.zero_add]
  exact layout.bits_le_bytes.trans (Nat.mul_le_mul_left 8 h)

theorem Sound.isEnable_of_link (h : layout.Sound) {slot : Slot} (hslot : slot ∈ layout.slots)
    {field : Field} (hfield : slot.item = .field field) {index : Nat}
    (hlink : slot.link = some index) :
    ∃ gate enable, layout.slots[index]? = some gate ∧ gate.item = .enable enable := by
  have hpartner := h.links slot hslot
  rw [hlink, hfield] at hpartner
  obtain ⟨enable, henable⟩ := Linkage.isEnable_of_partner? hpartner.symm
  rw [items, List.getElem?_map, Option.map_eq_some_iff] at henable
  obtain ⟨gate, hgate, hitem⟩ := henable
  exact ⟨gate, enable, hgate, hitem⟩

theorem Sound.isOpen_gateCells (h : layout.Sound) {slot : Slot} (hslot : slot ∈ layout.slots)
    (hfield : slot.item.field?.isSome) :
    Cell.isOpen (layout.slots.map (Slot.gateCell layout.slots data base)) slot.link =
      Slot.opens layout.slots data base slot.link := by
  obtain ⟨field, hsome⟩ := Option.isSome_iff_exists.mp hfield
  have hitem : slot.item = .field field := Item.eq_field_of_field? hsome
  cases hlink : slot.link with
  | none => rfl
  | some index =>
      obtain ⟨gate, enable, hgate, henable⟩ := h.isEnable_of_link hslot hitem hlink
      have hbits : gate.bits = enable.bits := by rw [Slot.bits, henable, Item.bits]
      simp only [Cell.isOpen, Cell.isSetAt, Slot.opens, List.getElem?_map, hgate, Option.map_some,
        Slot.gateCell, henable, Cell.isSet, hbits]

/-- Reading in two passes is reading each slot by itself. -/
theorem Sound.readAt_eq_mapM (h : layout.Sound) (hfit : base + layout.bits ≤ 8 * data.size) :
    layout.readAt data base = layout.slots.mapM (Slot.readCell layout.slots data base) := by
  have hfits : ∀ slot ∈ layout.slots,
      base + slot.position.offset + slot.bits ≤ 8 * data.size := by
    intro slot hslot
    have := h.fits hslot
    omega
  have hgates : ∀ slot ∈ layout.slots, slot.item.GateFits := fun _ hslot => h.gateFits hslot
  have hfirst : Slot.readGates data base layout.slots
      (layout.slots.map (Slot.freshCell layout.slots)) =
        .ok (layout.slots.map (Slot.gateCell layout.slots data base)) :=
    Slot.readGates_eq_ok hgates hfits
  rw [← Slot.freshCells_eq_map] at hfirst
  rw [← Slot.readFields_eq_mapM fun slot hslot hfield => h.isOpen_gateCells hslot hfield]
  obtain ⟨name, slots, bits, warnings, dynamicSize⟩ := layout
  rw [readAt, hfirst]
  rfl

/-- Unpacking succeeds on bytes that are long enough and of which every slot can be read. -/
theorem Sound.unpack_eq_ok (h : layout.Sound) {c : Container} :
    Container.unpack layout data = .ok c ↔
      layout.bytes ≤ data.size ∧ ∃ cells,
        List.Forall₂ (fun slot cell => slot.readCell layout.slots data 0 = .ok cell) layout.slots
          cells ∧ c = ⟨layout, cells⟩ := by
  rw [Container.unpack]
  by_cases hshort : data.size < layout.bytes
  · rw [if_pos hshort]
    constructor
    · intro hunpack
      cases hunpack
    · rintro ⟨hsize, _⟩
      omega
  · have hsize : layout.bytes ≤ data.size := Nat.le_of_not_lt hshort
    rw [if_neg hshort, Fallible.map_eq_ok, h.readAt_eq_mapM (fits_of_bytes_le hsize)]
    simp only [Fallible.mapM_eq_ok, hsize, true_and]
    constructor
    · rintro ⟨cells, hcells, rfl⟩
      exact ⟨cells, hcells, rfl⟩
    · rintro ⟨cells, hcells, rfl⟩
      exact ⟨cells, hcells, rfl⟩

end Layout

end RadioPacket
