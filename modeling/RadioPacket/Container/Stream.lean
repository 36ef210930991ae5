import RadioPacket.Bits.Stream
import RadioPacket.Container.Basic
import RadioPacket.Leaf.Codec

/-!
# The wire format as a stream

A second account of the wire format, without offsets.  Each slot contributes exactly as many bits
as it is wide, in slot order: an enable repeats its state, a present leaf field writes its pattern,
a present structure writes its own stream, and all else is zero.
-/

namespace RadioPacket

mutual

/-- The bits of a structure. -/
def Layout.stream : Layout → (cells : List Cell) → List Bool
  | ⟨_, slots, _, _, _⟩, cells => Slot.streamAll slots cells cells
termination_by structural layout => layout

/-- The bits of some slots; `all` holds the cells of the whole structure. -/
def Slot.streamAll : List Slot → (cells all : List Cell) → List Bool
  | ⟨.enable enable, _, _⟩ :: slots, cell :: cells, all =>
      List.replicate enable.bits cell.isSet ++ Slot.streamAll slots cells all
  | ⟨.field ⟨_, .leaf type, _, _, _, _⟩, _, link⟩ :: slots, .leaf value _ :: cells, all =>
      (if Cell.isOpen all link then Bits.ofNat type.bits (type.pattern value)
        else Bits.blank type.bits) ++ Slot.streamAll slots cells all
  | ⟨.field ⟨_, .record layout, _, _, _, _⟩, _, link⟩ :: slots, .record inner _ :: cells, all =>
      (if Cell.isOpen all link then layout.stream inner else Bits.blank layout.bits) ++
        Slot.streamAll slots cells all
  | slot :: slots, _ :: cells, all => Bits.blank slot.bits ++ Slot.streamAll slots cells all
  | _, _, _ => []
termination_by structural slots => slots

end

/-- The bits of a present field. -/
def FieldType.stream : FieldType → Cell → List Bool
  | .leaf type, .leaf value _ => Bits.ofNat type.bits (type.pattern value)
  | .record layout, .record cells _ => layout.stream cells
  | type, _ => Bits.blank type.bits

def Container.stream (c : Container) : List Bool := c.layout.stream c.cells

end RadioPacket
