import RadioPacket.Container.Assign
import RadioPacket.Container.Equality
import RadioPacket.Container.Stream
import RadioPacket.Container.Wire
import RadioPacket.Proofs.Layout.WellPlaced

/-!
# Slot by slot

The functions on containers run through the slots of a layout and through the structures nested in
it at the same time.  Here each of them is given as a function of one slot, and the run over the
slots of one layout becomes a plain list operation.  Proofs about a layout then use induction over
the list of its slots, and induction over layouts only where a nested structure stands.
-/

namespace RadioPacket

namespace Slot

/-! ## New cells -/

/-- The new cell of a slot among `all` slots. -/
def freshCell (all : List Slot) (slot : Slot) : Cell :=
  match slot.item with
  | .field field => field.type.freshCell field.mode
  | .enable _ => .enable (declaredPresence all slot.link)
  | .reserved _ => .reserved

theorem freshCells_eq_map (slots all : List Slot) :
    freshCells slots all = slots.map (freshCell all) := by
  induction slots with
  | nil => rfl
  | cons slot slots ih =>
      obtain ⟨item, position, link⟩ := slot
      rcases item with ⟨name, type, mode, enabledBy, editable, bit⟩ | enable | run
      · cases type with
        | leaf type => rw [freshCells, ih]; rfl
        | record layout => rw [freshCells, ih]; rfl
      · rw [freshCells, ih]; rfl
      · rw [freshCells, ih]; rfl

theorem freshCell_gate {all : List Slot} {gate slot : Slot} {enable : Enable} {field : Field}
    {index : Nat} (henable : gate.item = .enable enable) (hlink : gate.link = some index)
    (hslot : all[index]? = some slot) (hfield : slot.item = .field field) :
    gate.freshCell all = .enable (field.mode.presence?.getD false) := by
  rw [freshCell, henable]
  simp only [declaredPresence, hlink, Option.bind_eq_bind, Option.bind_some, hslot, hfield,
    Item.field?]

/-! ## Streams -/

/-- The bits of one slot; `all` holds the cells of the whole structure. -/
def stream (all : List Cell) (slot : Slot) (cell : Cell) : List Bool :=
  match slot.item with
  | .enable enable => List.replicate enable.bits cell.isSet
  | .field field =>
      if Cell.isOpen all slot.link then field.type.stream cell else Bits.blank field.bits
  | .reserved run => Bits.blank run.bits

theorem streamAll_cons (slot : Slot) (slots : List Slot) (cell : Cell) (cells all : List Cell) :
    streamAll (slot :: slots) (cell :: cells) all =
      slot.stream all cell ++ streamAll slots cells all := by
  obtain ⟨item, position, link⟩ := slot
  rcases item with ⟨name, type, mode, enabledBy, editable, bit⟩ | enable | run
  · have hblank (width : Nat) : (if Cell.isOpen all link then Bits.blank width
        else Bits.blank width) = Bits.blank width := ite_self _
    cases type with
    | leaf type =>
        cases cell with
        | leaf value mode => rfl
        | enable present => exact congrArg (· ++ _) (hblank type.bits).symm
        | record cells mode => exact congrArg (· ++ _) (hblank type.bits).symm
        | reserved => exact congrArg (· ++ _) (hblank type.bits).symm
    | record layout =>
        cases cell with
        | leaf value mode => exact congrArg (· ++ _) (hblank layout.bits).symm
        | enable present => exact congrArg (· ++ _) (hblank layout.bits).symm
        | record cells mode => rfl
        | reserved => exact congrArg (· ++ _) (hblank layout.bits).symm
  · rfl
  · rfl

theorem streamAll_eq_flatten (slots : List Slot) (cells all : List Cell) :
    streamAll slots cells all = (List.zipWith (stream all) slots cells).flatten := by
  induction slots generalizing cells with
  | nil => rfl
  | cons slot slots ih =>
      cases cells with
      | nil => simp [streamAll]
      | cons cell cells => rw [streamAll_cons, List.zipWith_cons_cons, List.flatten_cons, ih]

/-! ## Writers -/

/-- Writes one slot of a structure that starts at bit `base`. -/
def write (all : List Cell) (base : Nat) (slot : Slot) (cell : Cell) (data : Bytes) : Bytes :=
  match slot.item with
  | .enable enable =>
      Bits.write data (base + slot.position.offset) enable.bits
        (Enable.pattern enable.bits cell.isSet)
  | .field field =>
      if Cell.isOpen all slot.link then
        field.type.writeInto cell (base + slot.position.offset) data
      else data
  | .reserved _ => data

theorem writeAll_cons (slot : Slot) (slots : List Slot) (cell : Cell) (cells all : List Cell)
    (base : Nat) (data : Bytes) :
    writeAll (slot :: slots) (cell :: cells) all base data =
      writeAll slots cells all base (slot.write all base cell data) := by
  obtain ⟨item, position, link⟩ := slot
  rcases item with ⟨name, type, mode, enabledBy, editable, bit⟩ | enable | run
  · have hidle : (if Cell.isOpen all link then data else data) = data := ite_self _
    cases type with
    | leaf type =>
        cases cell with
        | leaf value mode => rfl
        | enable present => exact congrArg (writeAll slots cells all base) hidle.symm
        | record cells mode => exact congrArg (writeAll slots _ all base) hidle.symm
        | reserved => exact congrArg (writeAll slots cells all base) hidle.symm
    | record layout =>
        cases cell with
        | leaf value mode => exact congrArg (writeAll slots cells all base) hidle.symm
        | enable present => exact congrArg (writeAll slots cells all base) hidle.symm
        | record cells mode => rfl
        | reserved => exact congrArg (writeAll slots cells all base) hidle.symm
  · rfl
  · rfl

/-! ## Readers -/

/-- The cell of one slot after the enables have been read; `cell` is its new one. -/
def readGate (data : Bytes) (base : Nat) (slot : Slot) (cell : Cell) : Except UnpackError Cell :=
  match slot.item with
  | .enable enable =>
      (Bits.readPattern data (base + slot.position.offset) enable.bits).map fun pattern =>
        .enable (pattern != 0)
  | _ => .ok cell

theorem readGates_cons (data : Bytes) (base : Nat) (slot : Slot) (slots : List Slot) (cell : Cell)
    (cells : List Cell) :
    readGates data base (slot :: slots) (cell :: cells) = do
      let read ← slot.readGate data base cell
      return read :: (← readGates data base slots cells) := by
  obtain ⟨item, position, link⟩ := slot
  cases item with
  | field field => rfl
  | enable enable =>
      rw [readGates]
      simp only [readGate]
      cases Bits.readPattern data (base + position.offset) enable.bits with
      | error cause => rfl
      | ok pattern => rfl
  | reserved run => rfl

/-- The cell of one slot after the fields have been read; `all` are the cells with the enables. -/
def readField (all : List Cell) (data : Bytes) (base : Nat) (slot : Slot) (cell : Cell) :
    Except UnpackError Cell :=
  match slot.item with
  | .field field =>
      if Cell.isOpen all slot.link then
        field.type.readAt field.name field.mode data (base + slot.position.offset)
      else .ok cell
  | _ => .ok cell

theorem readFields_cons (slot : Slot) (slots : List Slot) (cell : Cell) (cells all : List Cell)
    (data : Bytes) (base : Nat) :
    readFields (slot :: slots) (cell :: cells) all data base = do
      let read ← slot.readField all data base cell
      return read :: (← readFields slots cells all data base) := by
  obtain ⟨item, position, link⟩ := slot
  rcases item with ⟨name, type, mode, enabledBy, editable, bit⟩ | enable | run
  · cases type with
    | leaf type =>
        simp only [readFields, readField]
        by_cases hopen : Cell.isOpen all link = true
        · rw [if_pos hopen, if_pos hopen]
          rfl
        · rw [if_neg hopen, if_neg hopen]
          rfl
    | record layout =>
        simp only [readFields, readField]
        by_cases hopen : Cell.isOpen all link = true
        · rw [if_pos hopen, if_pos hopen]
          rfl
        · rw [if_neg hopen, if_neg hopen]
          rfl
  · rfl
  · rfl

end Slot

theorem Layout.freshCells_eq_map (layout : Layout) :
    layout.freshCells = layout.slots.map (Slot.freshCell layout.slots) := by
  obtain ⟨name, slots, bits, warnings, dynamicSize⟩ := layout
  exact Slot.freshCells_eq_map slots slots

theorem Layout.stream_eq_flatten (layout : Layout) (cells : List Cell) :
    layout.stream cells = (List.zipWith (Slot.stream cells) layout.slots cells).flatten := by
  obtain ⟨name, slots, bits, warnings, dynamicSize⟩ := layout
  exact Slot.streamAll_eq_flatten slots cells cells

/-! ## What a container shows -/

namespace Container

variable {c : Container} {index : Nat} {slot : Slot} {cell : Cell}

theorem getElem?_new {layout : Layout} (hslot : layout.slots[index]? = some slot) :
    (Container.new layout).cells[index]? = some (slot.freshCell layout.slots) := by
  rw [new, layout.freshCells_eq_map, List.getElem?_map, hslot, Option.map_some]

theorem get?_eq (hslot : c.layout.slots[index]? = some slot) (hcell : c.cells[index]? = some cell) :
    c.get? index = if c.isAbsent slot then none else some (slot.valueOf cell) := by
  simp only [get?, Layout.slot?, hslot, hcell]
  rfl

theorem get?_field (hslot : c.layout.slots[index]? = some slot)
    (hcell : c.cells[index]? = some cell) {field : Field} (hfield : slot.item = .field field) :
    c.get? index =
      if Cell.isOpen c.cells slot.link then some (field.type.valueOf cell) else none := by
  have hvalue : slot.valueOf cell = field.type.valueOf cell := by rw [Slot.valueOf, hfield]
  have habsent : c.isAbsent slot = !Cell.isOpen c.cells slot.link := by
    rw [isAbsent, hfield]
    rfl
  rw [get?_eq hslot hcell, habsent, hvalue]
  cases Cell.isOpen c.cells slot.link with
  | false => rfl
  | true => rfl

theorem get?_unlinked (hslot : c.layout.slots[index]? = some slot)
    (hcell : c.cells[index]? = some cell) (hlink : slot.link = none) :
    c.get? index = some (slot.valueOf cell) := by
  have hpresent : c.isAbsent slot = false := by
    rw [isAbsent, hlink]
    exact Bool.and_false _
  rw [get?_eq hslot hcell, hpresent]
  rfl

theorem get?_enable (hslot : c.layout.slots[index]? = some slot)
    (hcell : c.cells[index]? = some cell) {enable : Enable}
    (henable : slot.item = .enable enable) :
    c.get? index = some (.scalar (.bool cell.isSet)) := by
  have hvalue : slot.valueOf cell = .scalar (.bool cell.isSet) := by rw [Slot.valueOf, henable]
  have habsent : c.isAbsent slot = false := by
    rw [isAbsent, henable]
    rfl
  rw [get?_eq hslot hcell, habsent, hvalue]
  rfl

end Container

end RadioPacket
