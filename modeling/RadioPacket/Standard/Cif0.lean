import RadioPacket.Standard.Header

/-!
# The first indicator field group

CIF0 with the standard bit assignments, and the structures of its payload.
-/

namespace RadioPacket.Standard

/-- A level in decibels below a reserved half word. -/
def referenceLevel : Build Layout :=
  structureOf "reference_level" [.reserved 16, .field "value" (fixed 16 7)]

/-- The gain of two stages. -/
def gain : Build Layout :=
  structureOf "gain" [.field "stage2" (fixed 16 7), .field "stage1" (fixed 16 7)]

/-- A temperature below a reserved half word. -/
def temperature : Build Layout :=
  structureOf "temperature" [.reserved 16, .field "value" (fixed 16 6)]

/-- Manufacturer and device. -/
def deviceId : Build Layout :=
  structureOf "device_id"
    [.reserved 8,
      .field "manufacturer_oui" (uint 24),
      .reserved 16,
      .field "device_code" (uint 16)]

/-- The events that a device reports. -/
def stateEvents : List String :=
  ["calibrated_time", "valid_data", "reference_lock", "agc_mgc", "detected_signal",
    "spectral_inversion", "over_range", "sample_loss"]

/-- Enables in bits 31 to 24 gate the indicators in bits 19 to 12. -/
def stateEventIndicators : Build Layout :=
  structureOf "state_event_indicators"
    ((stateEvents.map fun event => .enable (event ++ "_enable") event) ++
      [.reserved 4] ++
      (stateEvents.map fun event => .field event flag) ++
      [.reserved 4, .field "user_defined" (uint 8)])

/-- Codes of data item formats. -/
def dataItemFormat : LeafShape :=
  .enumeration
    { name := "DataItemFormat"
      bits := 5
      symbols :=
        [("signed_fixed", 0x00),
          ("signed_vrt1", 0x01),
          ("signed_vrt2", 0x02),
          ("signed_vrt3", 0x03),
          ("signed_vrt4", 0x04),
          ("signed_vrt5", 0x05),
          ("signed_vrt6", 0x06),
          ("signed_fixed_non_normalized", 0x07),
          ("ieee754_half", 0x0D),
          ("ieee754_single", 0x0E),
          ("ieee754_double", 0x0F),
          ("unsigned_fixed", 0x10),
          ("unsigned_vrt1", 0x11),
          ("unsigned_vrt2", 0x12),
          ("unsigned_vrt3", 0x13),
          ("unsigned_vrt4", 0x14),
          ("unsigned_vrt5", 0x15),
          ("unsigned_vrt6", 0x16),
          ("unsigned_fixed_non_normalized", 0x17)] }

/-- How signal samples are packed. -/
def signalDataFormat : Build Layout :=
  structureOf "signal_data_format"
    [.field "packing_method"
        (counting "PackingMethod" 1 ["processing_efficient", "link_efficient"]),
      .field "real_complex_type"
        (counting "DataSampleType" 2 ["real", "complex_cartesian", "complex_polar"]),
      .field "data_item_format" dataItemFormat,
      .field "repeat_indicator" flag,
      .field "event_tag_size" (uint 3),
      .field "channel_tag_size" (uint 4),
      .field "data_item_fraction_size" (uint 4),
      .field "item_packing_field_size" (.nonZeroSize 6),
      .field "data_item_size" (.nonZeroSize 6),
      .field "repeat_count" (.nonZeroSize 16),
      .field "vector_size" (.nonZeroSize 16)]

/-- The first four words of the location records. -/
def locationStart : List Part :=
  [.reserved 4,
    .field "tsi" timestampInteger,
    .field "tsf" timestampFraction,
    .field "manufacturer_oui" (uint 24),
    .field "integer_timestamp" (uint 32),
    .field "fractional_timestamp" (uint 64)]

/-- A location on the ground. -/
def geolocation (name : String) : Build Layout :=
  structureOf name
    (locationStart ++
      [.field "latitude" (fixed 32 22),
        .field "longitude" (fixed 32 22),
        .field "altitude" (fixed 32 5),
        .field "speed_over_ground" (fixed 32 16),
        .field "heading_angle" (fixed 32 22),
        .field "track_angle" (fixed 32 22),
        .field "magnetic_variation" (fixed 32 22)])

/-- A location in space with attitude and velocity. -/
def ephemeris (name : String) : Build Layout :=
  structureOf name
    (locationStart ++
      (["x", "y", "z"].map fun axis => .field ("position_" ++ axis) (fixed 32 5)) ++
      (["alpha", "beta", "phi"].map fun axis => .field ("attitude_" ++ axis) (fixed 32 22)) ++
      (["x", "y", "z"].map fun axis => .field ("velocity_" ++ axis) (fixed 32 16)))

/-- The number of words of a text that follows. -/
def gpsAscii : Build Layout :=
  openStructureOf "gps_ascii"
    [.reserved 8, .field "manufacturer_oui" (uint 24), .field "number_of_words" (uint 32)]

/-- The sizes of lists that follow. -/
def contextAssociationLists : Build Layout :=
  openStructureOf "context_association_lists"
    [.reserved 7,
      .field "source_list_size" (uint 9),
      .reserved 7,
      .field "system_list_size" (uint 9),
      .field "vector_component_list_size" (uint 16),
      .field "asynchronous_channel_tag_list_enable" flag,
      .field "asynchronous_channel_list_size" (uint 15)]

/-- A payload field of a leaf type. -/
def leafContent (name : String) (bit : Nat) (shape : LeafShape) : Build CifEntry := do
  return .content name bit (.leaf (← Build.leaf shape))

/-- A payload field that is a structure. -/
def recordContent (name : String) (bit : Nat) (layout : Build Layout) : Build CifEntry := do
  return .content name bit (.record (← layout))

def cif0 : Build CifGroup := do
  let frequency := fixed 64 20
  let entries : List (Build CifEntry) :=
    [return .indicator "change_indicator" 31,
      leafContent "reference_point_id" 30 (uint 32),
      leafContent "bandwidth" 29 frequency,
      leafContent "if_reference_frequency" 28 frequency,
      leafContent "rf_reference_frequency" 27 frequency,
      leafContent "rf_reference_frequency_offset" 26 frequency,
      leafContent "if_band_offset" 25 frequency,
      recordContent "reference_level" 24 referenceLevel,
      recordContent "gain" 23 gain,
      leafContent "over_range_count" 22 (uint 32),
      leafContent "sample_rate" 21 frequency,
      leafContent "timestamp_adjustment" 20 (int 64),
      leafContent "timestamp_calibration_time" 19 (uint 32),
      recordContent "temperature" 18 temperature,
      recordContent "device_id" 17 deviceId,
      recordContent "state_event_indicators" 16 stateEventIndicators,
      recordContent "signal_data_format" 15 signalDataFormat,
      recordContent "formatted_gps" 14 (geolocation "formatted_gps"),
      recordContent "formatted_ins" 13 (geolocation "formatted_ins"),
      recordContent "ecef_ephemeris" 12 (ephemeris "ecef_ephemeris"),
      recordContent "relative_ephemeris" 11 (ephemeris "relative_ephemeris"),
      leafContent "ephemeris_reference_id" 10 (uint 32),
      recordContent "gps_ascii" 9 gpsAscii,
      recordContent "context_association_lists" 8 contextAssociationLists,
      return .indicator "cif7_enable" 7,
      return .reserved 6,
      return .reserved 5,
      return .reserved 4,
      return .indicator "cif3_enable" 3,
      return .indicator "cif2_enable" 2,
      return .indicator "cif1_enable" 1,
      return .reserved 0]
  Build.group { name := "cif0", entries := ← entries.mapM id }

end RadioPacket.Standard
