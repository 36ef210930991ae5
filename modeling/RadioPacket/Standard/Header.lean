import RadioPacket.Standard.Parts

/-!
# Packet headers

The generic packet header keeps bits 26 to 24 of its word reserved.  Each kind of packet has a
header of its own that rebinds some of them and leaves all other fields where they are.
-/

namespace RadioPacket.Standard

/-- Packet type codes of bits 31 to 28. -/
def packetType : LeafShape :=
  counting "PacketType" 4
    ["signal_data", "signal_data_stream_id", "extension_data", "extension_data_stream_id",
      "context", "extension_context", "command", "extension_command"]

/-- Integer-seconds timestamp code. -/
def timestampInteger : LeafShape := counting "TSI" 2 ["none", "utc", "gps", "other"]

/-- Fractional-seconds timestamp code. -/
def timestampFraction : LeafShape :=
  counting "TSF" 2 ["none", "sample_count", "real_time", "free_running"]

/-- Precision of a context packet's timestamp. -/
def timestampMode : LeafShape := counting "TSM" 1 ["precise", "general"]

/-- The generic first word of a packet. -/
def header : Build Layout :=
  structureOf "header"
    [.field "packet_type" packetType,
      .enable "class_id_enable" "class_id",
      .reserved 3,
      .field "tsi" timestampInteger,
      .field "tsf" timestampFraction,
      .field "packet_count" (uint 4),
      .field "packet_size" (uint 16)]

/-- The header with some reserved bits of its word rebound, under a new name. -/
def headerWith (name : String) (bindings : List (Nat × String × LeafShape)) : Build Layout := do
  let base ← header
  let steps ← bindings.mapM fun (bit, name, shape) => do
    return Step.rebind (.ofWordBit 0 bit) { name, type := .leaf (← Build.leaf shape) }
  Build.layout { Blueprint.extend name base with steps }

/-- The header of signal and extension data. -/
def dataHeader : Build Layout :=
  headerWith "data_header"
    [(26, "trailer_included", flag), (25, "not_v49d0", flag), (24, "signal_spectrum", flag)]

/-- The header of context packets. -/
def contextHeader : Build Layout :=
  headerWith "context_header" [(25, "not_v49d0", flag), (24, "timestamp_mode", timestampMode)]

/-- The header of command packets. -/
def commandHeader : Build Layout :=
  headerWith "command_header"
    [(26, "acknowledge_packet", flag), (24, "cancellation_packet", flag)]

/-- The class identifier, present when the header's `class_id_enable` is set. -/
def classId : Build Layout :=
  structureOf "class_id"
    [.field "pad_bit_count" (uint 5),
      .reserved 3,
      .field "oui" (uint 24),
      .field "information_class_code" (uint 16),
      .field "packet_class_code" (uint 16)]

end RadioPacket.Standard
