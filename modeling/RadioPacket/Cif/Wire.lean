import RadioPacket.Cif.Container
import RadioPacket.Container.Wire

/-!
# Indicator field groups on the wire

The indicator word comes first, then exactly the payload fields that it announces, one behind the
other from the highest indicator bit down.
-/

namespace RadioPacket

namespace CifContainer

/-- Payload width of some fields under the given indicator word. -/
def payloadBits (enables : List Cell) : List CifContent → Nat
  | [] => 0
  | content :: rest =>
      (if Cell.isSetAt enables content.enable then content.type.bits else 0) +
        payloadBits enables rest

/-- Total width under the present indicator bits. -/
def packedBits (c : CifContainer) : Nat :=
  c.group.enables.bits + payloadBits c.enables.cells c.group.content

/-- Writes the announced fields from bit `position` on. -/
def writePayload (enables : List Cell) :
    List CifContent → List Cell → (position : Nat) → Bytes → Bytes
  | content :: contents, cell :: cells, position, data =>
      if Cell.isSetAt enables content.enable then
        writePayload enables contents cells (position + content.type.bits)
          (content.type.writeInto cell position data)
      else writePayload enables contents cells position data
  | _, _, _, data => data

/-- The bytes of a group's container. -/
def pack (c : CifContainer) : Bytes :=
  writePayload c.enables.cells c.group.content c.cells c.group.enables.bits
    (c.enables.layout.writeInto c.enables.cells 0 (Bits.zeros (Bits.bytesFor c.packedBits)))

/-- Reads the announced fields from bit `position` on; the others get new cells. -/
def readPayload (enables : List Cell) (data : Bytes) :
    List CifContent → (position : Nat) → Except UnpackError (List Cell)
  | [], _ => .ok []
  | content :: rest, position =>
      if Cell.isSetAt enables content.enable then do
        let required := Bits.bytesFor (position + content.type.bits)
        if data.size < required then throw (.packetTooShort required data.size)
        let cell ← content.type.readAt content.name content.mode data position
        return cell :: (← readPayload enables data rest (position + content.type.bits))
      else do
        return content.type.freshCell content.mode :: (← readPayload enables data rest position)

/-- The container that some bytes stand for. -/
def unpack (group : CifGroup) (data : Bytes) : Except UnpackError CifContainer := do
  let enables ← Container.unpack group.enables data
  let cells ← readPayload enables.cells data group.content group.enables.bits
  return { group, enables, cells }

end CifContainer

end RadioPacket
