import RadioPacket.Cif.Container
import RadioPacket.Container.Stream

/-!
# Indicator field groups as a stream

The stream of the indicator word, followed by the streams of the payload fields that it announces.
Fields that are not announced take no bits at all.
-/

namespace RadioPacket

/-- The bits of the announced payload fields. -/
def CifContainer.payloadStream (enables : List Cell) : List CifContent → List Cell → List Bool
  | content :: contents, cell :: cells =>
      (if Cell.isSetAt enables content.enable then content.type.stream cell else []) ++
        CifContainer.payloadStream enables contents cells
  | _, _ => []

/-- The bits of a group's container: the indicator word, then the announced fields. -/
def CifContainer.stream (c : CifContainer) : List Bool :=
  c.enables.stream ++ CifContainer.payloadStream c.enables.cells c.group.content c.cells

end RadioPacket
