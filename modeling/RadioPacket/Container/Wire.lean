import RadioPacket.Container.Basic
import RadioPacket.Leaf.Codec

/-!
# Containers on the wire

Packing writes each item at its offset into a byte string of zeros, nested structures at the
offset of their field.  Absent fields and reserved bits stay zero.  Unpacking reads the enables of
a structure first, so that absent fields are not decoded and keep their defaults.
-/

namespace RadioPacket

/-- The pattern of an enable: all ones when it is set. -/
def Enable.pattern (bits : Nat) (present : Bool) : Nat := if present then Bits.mask bits else 0

mutual

/-- Writes the cells of a structure that starts at bit `base`. -/
def Layout.writeInto : Layout → (cells : List Cell) → (base : Nat) → Bytes → Bytes
  | ⟨_, slots, _, _, _⟩, cells, base, data => Slot.writeAll slots cells cells base data
termination_by structural layout => layout

/-- Writes the cells of some slots; `all` holds the cells of the whole structure. -/
def Slot.writeAll : List Slot → (cells all : List Cell) → (base : Nat) → Bytes → Bytes
  | ⟨.enable enable, position, _⟩ :: slots, cell :: cells, all, base, data =>
      Slot.writeAll slots cells all base
        (Bits.write data (base + position.offset) enable.bits
          (Enable.pattern enable.bits cell.isSet))
  | ⟨.field ⟨_, .leaf type, _, _, _, _⟩, position, link⟩ :: slots, .leaf value _ :: cells, all,
    base, data =>
      Slot.writeAll slots cells all base
        (if Cell.isOpen all link then
          Bits.write data (base + position.offset) type.bits (type.pattern value)
        else data)
  | ⟨.field ⟨_, .record layout, _, _, _, _⟩, position, link⟩ :: slots, .record inner _ :: cells,
    all, base, data =>
      Slot.writeAll slots cells all base
        (if Cell.isOpen all link then
          layout.writeInto inner (base + position.offset) data
        else data)
  | _ :: slots, _ :: cells, all, base, data => Slot.writeAll slots cells all base data
  | _, _, _, _, data => data
termination_by structural slots => slots

end

/-- Reads bits as part of a decoding. -/
def Bits.readPattern (data : Bytes) (position width : Nat) : Except UnpackError Nat :=
  (Bits.read data position width).mapError .bits

def LeafType.readAt (data : Bytes) (position : Nat) (field : String) (type : LeafType) :
    Except UnpackError Scalar := do
  let pattern ← Bits.readPattern data position type.bits
  (type.decode pattern).mapError (.invalidValue field)

/-- The cells with every enable as the data say. -/
def Slot.readGates (data : Bytes) (base : Nat) :
    List Slot → List Cell → Except UnpackError (List Cell)
  | ⟨.enable enable, position, _⟩ :: slots, _ :: cells => do
      let pattern ← Bits.readPattern data (base + position.offset) enable.bits
      return .enable (pattern != 0) :: (← Slot.readGates data base slots cells)
  | _ :: slots, cell :: cells => return cell :: (← Slot.readGates data base slots cells)
  | _, _ => return []

mutual

/-- Reads the cells of a structure that starts at bit `base`. -/
def Layout.readAt : Layout → Bytes → (base : Nat) → Except UnpackError (List Cell)
  | ⟨_, slots, _, _, _⟩, data, base => do
      let cells ← Slot.readGates data base slots (Slot.freshCells slots slots)
      Slot.readFields slots cells cells data base
termination_by structural layout => layout

/-- Reads the fields of some slots; `all` holds the cells of the whole structure, whose enables
are already known. -/
def Slot.readFields : List Slot → (cells all : List Cell) → Bytes → (base : Nat) →
    Except UnpackError (List Cell)
  | ⟨.field ⟨name, .leaf type, mode, _, _, _⟩, position, link⟩ :: slots, cell :: cells, all, data,
    base => do
      let read ←
        if Cell.isOpen all link then
          (LeafType.readAt data (base + position.offset) name type).map fun value =>
            .leaf value mode
        else pure cell
      return read :: (← Slot.readFields slots cells all data base)
  | ⟨.field ⟨_, .record layout, mode, _, _, _⟩, position, link⟩ :: slots, cell :: cells, all, data,
    base => do
      let read ←
        if Cell.isOpen all link then
          (layout.readAt data (base + position.offset)).map fun inner => .record inner mode
        else pure cell
      return read :: (← Slot.readFields slots cells all data base)
  | _ :: slots, cell :: cells, all, data, base =>
      return cell :: (← Slot.readFields slots cells all data base)
  | _, _, _, _, _ => return []
termination_by structural slots => slots

end

/-- Writes the cell of a present field at its position. -/
def FieldType.writeInto : FieldType → Cell → (position : Nat) → Bytes → Bytes
  | .leaf type, .leaf value _, position, data =>
      Bits.write data position type.bits (type.pattern value)
  | .record layout, .record cells _, position, data => layout.writeInto cells position data
  | _, _, _, data => data

/-- Reads the cell of a present field at its position. -/
def FieldType.readAt (name : String) (mode : Mode) :
    FieldType → Bytes → (position : Nat) → Except UnpackError Cell
  | .leaf type, data, position =>
      (LeafType.readAt data position name type).map fun value => .leaf value mode
  | .record layout, data, position =>
      (layout.readAt data position).map fun cells => .record cells mode

namespace Container

/-- The bytes of a container, most significant bit first. -/
def pack (c : Container) : Bytes :=
  c.layout.writeInto c.cells 0 (Bits.zeros c.layout.bytes)

/-- The container that some bytes stand for.  Bytes behind the structure are ignored. -/
def unpack (layout : Layout) (data : Bytes) : Except UnpackError Container :=
  if data.size < layout.bytes then .error (.packetTooShort layout.bytes data.size)
  else (layout.readAt data 0).map fun cells => ⟨layout, cells⟩

end Container

end RadioPacket
