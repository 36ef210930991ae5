import RadioPacket.Cif.Checked
import RadioPacket.Cif.Stream
import RadioPacket.Cif.Wire
import RadioPacket.Definition.Compile
import RadioPacket.Definition.Instance
import RadioPacket.Definition.Reader
import RadioPacket.Definition.Writer
import RadioPacket.Json.Reader
import RadioPacket.Layout.Cursor
import RadioPacket.Proofs.Bits.Window
import RadioPacket.Proofs.Cif.Built
import RadioPacket.Proofs.Cif.Decoding
import RadioPacket.Proofs.Cif.Matrix
import RadioPacket.Proofs.Cif.Reachable
import RadioPacket.Proofs.Cif.Reading
import RadioPacket.Proofs.Cif.RoundTrip
import RadioPacket.Proofs.Cif.WireFormat
import RadioPacket.Proofs.Cif.Word
import RadioPacket.Proofs.Container.Canonical
import RadioPacket.Proofs.Container.Cells
import RadioPacket.Proofs.Container.Decoding
import RadioPacket.Proofs.Container.Footprint
import RadioPacket.Proofs.Container.Interference
import RadioPacket.Proofs.Container.Reachable
import RadioPacket.Proofs.Container.ReadBack
import RadioPacket.Proofs.Container.Reading
import RadioPacket.Proofs.Container.RoundTrip
import RadioPacket.Proofs.Container.Shared
import RadioPacket.Proofs.Container.WireFormat
import RadioPacket.Proofs.Fallible
import RadioPacket.Proofs.Layout.Built
import RadioPacket.Proofs.Layout.Cursor
import RadioPacket.Proofs.Layout.Linking
import RadioPacket.Proofs.Layout.Pairing
import RadioPacket.Proofs.Layout.Placing
import RadioPacket.Proofs.Layout.Staging
import RadioPacket.Proofs.Layout.WellPlaced
import RadioPacket.Proofs.Leaf.Canonical
import RadioPacket.Proofs.Leaf.FixedPoint
import RadioPacket.Proofs.Leaf.Normal
import RadioPacket.Proofs.Number.Rounding
import RadioPacket.Standard.Cif0
import RadioPacket.Proofs.Container.History
import RadioPacket.Proofs.Cif.WellFormed
import RadioPacket.Proofs.Cif.Flat
import RadioPacket.Proofs.Cif.Simulation
import RadioPacket.Cif.InPlace
import RadioPacket.Proofs.Cif.InPlace
import RadioPacket.Proofs.Container.ReadOnly
import RadioPacket.Proofs.Container.Mandatory
import RadioPacket.Proofs.Cif.Mandatory
import RadioPacket.Leaf.Keyed
import RadioPacket.Leaf.Words
import RadioPacket.Proofs.Leaf.Table
import RadioPacket.Proofs.Definition.Instance
import RadioPacket.Proofs.Definition.Gating
import RadioPacket.Proofs.Definition.Readable
import RadioPacket.Proofs.Definition.Rereading
import RadioPacket.Proofs.Leaf.Equality
import RadioPacket.Proofs.Container.Equality
import RadioPacket.Proofs.Cif.Equality
import RadioPacket.Proofs.Container.Carried
import RadioPacket.Proofs.Layout.Rebinding
import RadioPacket.Proofs.Layout.Commuting
import RadioPacket.Proofs.Container.Symbols
import RadioPacket.Proofs.Leaf.Integers
import RadioPacket.Proofs.Container.Narrow
import RadioPacket.Proofs.Container.Moded
import RadioPacket.Proofs.Container.Requests
import RadioPacket.Proofs.Cif.Requests
import RadioPacket.Bits.Loop
import RadioPacket.Proofs.Bits.Loop
import RadioPacket.Proofs.Bits.Number
