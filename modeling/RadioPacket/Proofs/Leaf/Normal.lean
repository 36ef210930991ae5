import RadioPacket.Leaf.Codec
import RadioPacket.Proofs.Number.Rounding

/-!
# Normal values

A value is normal for a leaf type when the type's own check leaves it as it is.  Defaults, checked
values and decoded values are normal.  A normal value of any type but a fixed-point one is what
its pattern decodes to; for a fixed-point type the pattern always decodes to something.
-/

namespace RadioPacket

namespace EnumTable

theorem le_mask_of_symbolFault?_eq_none {bits : Nat} {seen symbols : List (String × Nat)}
    (h : symbolFault? bits seen symbols = none) :
    ∀ entry ∈ symbols, entry.2 ≤ Bits.mask bits := by
  induction symbols generalizing seen with
  | nil => simp
  | cons head rest ih =>
      obtain ⟨symbol, value⟩ := head
      simp only [symbolFault?] at h
      split at h
      · cases h
      · next hfits =>
          split at h
          · cases h
          · intro entry hentry
            rcases List.mem_cons.mp hentry with rfl | hrest
            · exact Nat.le_of_not_lt hfits
            · exact ih h entry hrest

theorem isSome_symbol?_iff {table : EnumTable} {value : Nat} :
    (table.symbol? value).isSome ↔ ∃ entry ∈ table.symbols, entry.2 = value := by
  rw [symbol?, Option.isSome_map, List.find?_isSome]
  simp only [beq_iff_eq]

theorem lt_of_symbol? {table : EnumTable} {value : Nat} (hlegal : table.fault? = none)
    (h : (table.symbol? value).isSome) : value < 2 ^ table.bits := by
  have hsymbols : symbolFault? table.bits [] table.symbols = none := by
    unfold fault? at hlegal
    split at hlegal
    · cases hlegal
    · assumption
  have hfits : ∀ entry ∈ table.symbols, entry.2 ≤ Bits.mask table.bits :=
    le_mask_of_symbolFault?_eq_none hsymbols
  obtain ⟨entry, hentry, hvalue⟩ := isSome_symbol?_iff.mp h
  have hle := hfits entry hentry
  have hmask : Bits.mask table.bits < 2 ^ table.bits := by
    have hmin : 2 ^ min table.bits Bits.maxWidth ≤ 2 ^ table.bits :=
      Nat.pow_le_pow_right (by decide) (Nat.min_le_left _ _)
    have := Nat.two_pow_pos (min table.bits Bits.maxWidth)
    rw [Bits.mask]
    omega
  omega

theorem symbol?_head {table : EnumTable} (hlegal : table.fault? = none) :
    (table.symbol? ((table.symbols.head?.map (·.2)).getD 0)).isSome := by
  cases hsymbols : table.symbols with
  | nil => simp [fault?, hsymbols, symbolFault?] at hlegal
  | cons head rest => simp [symbol?, hsymbols]

end EnumTable

namespace LeafShape

theorem fault?_of_enumeration {table : EnumTable} (h : (enumeration table).fault? = none) :
    table.fault? = none := by
  unfold fault? at h
  split at h
  · cases h
  · simpa using h

theorem bits_pos_of_fault?_eq_none {shape : LeafShape} (h : shape.fault? = none) :
    0 < shape.bits := by
  by_contra hzero
  have : shape.bits = 0 := by omega
  simp [fault?, this] at h

theorem bits_le_of_fault?_eq_none {shape : LeafShape} (h : shape.fault? = none) :
    shape.bits ≤ shape.maxBits := by
  by_contra hwide
  have : shape.maxBits < shape.bits := by omega
  simp [fault?, this] at h

theorem maxBits_le (shape : LeafShape) : shape.maxBits ≤ 64 := by
  cases shape with
  | nonZeroSize _ => exact Nat.le_succ 63
  | boolean _ => exact Nat.le_refl _
  | integer _ _ => exact Nat.le_refl _
  | fixedPoint _ _ _ => exact Nat.le_refl _
  | enumeration _ => exact Nat.le_refl _

theorem bits_le_of_check {shape : LeafShape} {type : LeafType} (h : shape.check = .ok type) :
    shape.bits ≤ 64 := by
  unfold check at h
  split at h
  · next hlegal => exact (bits_le_of_fault?_eq_none hlegal).trans shape.maxBits_le
  · cases h

end LeafShape

namespace LeafType

theorem bits_pos (type : LeafType) : 0 < type.bits :=
  LeafShape.bits_pos_of_fault?_eq_none type.legal

theorem bits_le (type : LeafType) : type.bits ≤ 64 :=
  (LeafShape.bits_le_of_fault?_eq_none type.legal).trans (LeafShape.maxBits_le type.shape)

/-- The type's values are integers counted in steps of a power of two. -/
def IsFixedPoint (type : LeafType) : Prop :=
  ∃ bits radix signed, type.shape = .fixedPoint bits radix signed

/-- The type's check accepts the value and leaves it as it is. -/
def Normal (type : LeafType) (value : Scalar) : Prop := type.coerce value = .ok value

theorem pattern_lt (type : LeafType) (value : Scalar) : type.pattern value < 2 ^ type.bits := by
  have hpos : (0 : Int) < 2 ^ type.bits := Int.pow_pos (by decide)
  have hlt := Int.emod_lt_of_pos (type.wireNumber value) hpos
  have hnonneg := Int.emod_nonneg (type.wireNumber value) (Int.ne_of_gt hpos)
  rw [pattern, Int.toNat_lt hnonneg]
  push_cast
  exact hlt

theorem encode_of_normal {type : LeafType} {value : Scalar} (h : type.Normal value) :
    type.encode value = .ok (type.pattern value) := by
  rw [encode, h]
  rfl

theorem two_pow_half {bits : Nat} (hpos : 0 < bits) :
    (2 : Int) ^ bits = 2 * 2 ^ (bits - 1) := by
  have hsucc : bits - 1 + 1 = bits := by omega
  rw [← Int.pow_succ', hsucc]

/-! ## Which values are normal -/

section Members

variable {type : LeafType} {bits : Nat}

theorem coerceInt_of_mem (type : LeafType) {low high number : Int} (normal : Int → Scalar)
    {value : Scalar} (hnumber : value.integer? = some number) (hlow : low ≤ number)
    (hhigh : number ≤ high) :
    type.coerceInt low high normal value = .ok (normal number) := by
  have hrange : ¬ (number < low ∨ high < number) := by omega
  simp only [coerceInt, hnumber, if_neg hrange]

theorem normal_bool (hshape : type.shape = .boolean bits) (value : Bool) :
    type.Normal (.bool value) := by
  simp only [Normal, coerce, hshape, Scalar.toInt?]
  cases value
  · rfl
  · rfl

theorem normal_signed (hshape : type.shape = .integer bits true) {number : Int}
    (hlow : -2 ^ (bits - 1) ≤ number) (hhigh : number ≤ 2 ^ (bits - 1) - 1) :
    type.Normal (.signed number) := by
  simp only [Normal, coerce, hshape]
  exact coerceInt_of_mem type .signed rfl hlow hhigh

theorem normal_unsigned (hshape : type.shape = .integer bits false) {number : Nat}
    (hlt : number < 2 ^ bits) : type.Normal (.unsigned number) := by
  have hcast : (number : Int) < 2 ^ bits := by exact_mod_cast hlt
  simp only [Normal, coerce, hshape]
  exact coerceInt_of_mem type (fun number => .unsigned number.toNat) rfl
    (Int.natCast_nonneg number) (Int.le_sub_one_of_lt hcast)

theorem normal_size (hshape : type.shape = .nonZeroSize bits) {number : Nat}
    (hpos : 1 ≤ number) (hle : number ≤ 2 ^ bits) : type.Normal (.unsigned number) := by
  have hlow : (1 : Int) ≤ number := by exact_mod_cast hpos
  have hhigh : (number : Int) ≤ 2 ^ bits := by exact_mod_cast hle
  simp only [Normal, coerce, hshape]
  exact coerceInt_of_mem type (fun number => .unsigned number.toNat) rfl hlow hhigh

theorem normal_signed_scaled {radix : Nat} (hshape : type.shape = .fixedPoint bits radix true)
    {number : Int} (hlow : -2 ^ (bits - 1) ≤ number) (hhigh : number ≤ 2 ^ (bits - 1) - 1) :
    type.Normal (.float (.ofScaled number radix)) := by
  simp [Normal, coerce, hshape, Scalar.toFloat?, floatRange?, Binary64.le_ofScaled radix hlow,
    Binary64.le_ofScaled radix hhigh]

theorem normal_unsigned_scaled {radix : Nat}
    (hshape : type.shape = .fixedPoint bits radix false) {number : Nat}
    (hlt : number < 2 ^ bits) : type.Normal (.float (.ofScaled number radix)) := by
  have hcast : (number : Int) ≤ 2 ^ bits - 1 := by
    have : (number : Int) < 2 ^ bits := by exact_mod_cast hlt
    omega
  have hlow := Binary64.zero_le_ofScaled radix (Int.natCast_nonneg number)
  simp [Normal, coerce, hshape, Scalar.toFloat?, floatRange?, hlow,
    Binary64.le_ofScaled radix hcast]

theorem normal_member {table : EnumTable} (hshape : type.shape = .enumeration table)
    {number : Nat} (hmember : (table.symbol? number).isSome) :
    type.Normal (.unsigned number) := by
  simp [Normal, coerce, hshape, Scalar.integer?, hmember]

end Members

/-! ## Checked values -/

theorem coerceInt_eq_ok {type : LeafType} {low high : Int} {normal : Int → Scalar}
    {value result : Scalar} (h : type.coerceInt low high normal value = .ok result) :
    ∃ number, low ≤ number ∧ number ≤ high ∧ result = normal number := by
  unfold coerceInt at h
  cases hnumber : value.integer? with
  | none => simp [hnumber] at h
  | some number =>
      simp only [hnumber] at h
      split at h
      · cases h
      · next hrange =>
          cases h
          exact ⟨number, by omega, by omega, rfl⟩

/-- The forms that a checked value takes. -/
theorem coerce_eq_ok {type : LeafType} {value result : Scalar}
    (h : type.coerce value = .ok result) :
    match type.shape with
    | .boolean _ => ∃ bit, result = .bool bit
    | .integer bits true =>
        ∃ number : Int, -2 ^ (bits - 1) ≤ number ∧ number ≤ 2 ^ (bits - 1) - 1 ∧
          result = .signed number
    | .integer bits false => ∃ number : Nat, number < 2 ^ bits ∧ result = .unsigned number
    | .nonZeroSize bits =>
        ∃ number : Nat, 1 ≤ number ∧ number ≤ 2 ^ bits ∧ result = .unsigned number
    | .fixedPoint _ _ _ =>
        ∃ number low high, type.floatRange? = some (low, high) ∧ low.le number = true ∧
          number.le high = true ∧ result = .float number
    | .enumeration table =>
        ∃ number : Nat, (table.symbol? number).isSome ∧ result = .unsigned number := by
  cases hshape : type.shape with
  | boolean bits =>
      simp only [coerce, hshape] at h
      split at h
      · cases h
        exact ⟨_, rfl⟩
      · cases h
  | integer bits signed =>
      cases signed with
      | true =>
          simp only [coerce, hshape] at h
          exact coerceInt_eq_ok h
      | false =>
          simp only [coerce, hshape] at h
          obtain ⟨number, hlow, hhigh, hresult⟩ := coerceInt_eq_ok h
          refine ⟨number.toNat, ?_, hresult⟩
          rw [Int.toNat_lt hlow]
          push_cast
          omega
  | nonZeroSize bits =>
      simp only [coerce, hshape] at h
      obtain ⟨number, hlow, hhigh, hresult⟩ := coerceInt_eq_ok h
      refine ⟨number.toNat, by omega, ?_, hresult⟩
      rw [Int.toNat_le]
      push_cast
      exact hhigh
  | fixedPoint bits radix signed =>
      simp only [coerce, hshape] at h
      split at h
      · next number low high _ hlimits =>
          split at h
          · next hrange =>
              cases h
              rw [Bool.and_eq_true] at hrange
              exact ⟨number, low, high, hlimits, hrange.1, hrange.2, rfl⟩
          · cases h
      · cases h
  | enumeration table =>
      simp only [coerce, hshape] at h
      split at h
      · cases h
      · next number _ =>
          split at h
          · next hmember =>
              cases h
              exact ⟨number.toNat, hmember.2, rfl⟩
          · cases h

/-- What a check accepts, it leaves in a form that it accepts again. -/
theorem normal_of_coerce {type : LeafType} {value result : Scalar}
    (h : type.coerce value = .ok result) : type.Normal result := by
  have hform := coerce_eq_ok h
  cases hshape : type.shape with
  | boolean bits =>
      simp only [hshape] at hform
      obtain ⟨bit, rfl⟩ := hform
      exact normal_bool hshape bit
  | integer bits signed =>
      cases signed with
      | true =>
          simp only [hshape] at hform
          obtain ⟨number, hlow, hhigh, rfl⟩ := hform
          exact normal_signed hshape hlow hhigh
      | false =>
          simp only [hshape] at hform
          obtain ⟨number, hlt, rfl⟩ := hform
          exact normal_unsigned hshape hlt
  | nonZeroSize bits =>
      simp only [hshape] at hform
      obtain ⟨number, hpos, hle, rfl⟩ := hform
      exact normal_size hshape hpos hle
  | fixedPoint bits radix signed =>
      simp only [hshape] at hform
      obtain ⟨number, low, high, hlimits, hlow, hhigh, rfl⟩ := hform
      simp [Normal, coerce, hshape, Scalar.toFloat?, hlimits, hlow, hhigh]
  | enumeration table =>
      simp only [hshape] at hform
      obtain ⟨number, hmember, rfl⟩ := hform
      exact normal_member hshape hmember

/-! ## Decoded values -/

theorem signExtend_eq_bmod {bits : Nat} (raw : Nat) (hpos : 0 < bits) (hle : bits ≤ 64) :
    Bits.signExtend raw bits = (raw : Int).bmod (2 ^ bits) := by
  have hne : bits ≠ 0 := by omega
  have hmin : min bits Bits.maxWidth = bits := Nat.min_eq_left hle
  rw [Bits.signExtend, if_neg hne, hmin]

theorem signExtend_mem {bits : Nat} (raw : Nat) (hpos : 0 < bits) (hle : bits ≤ 64) :
    -2 ^ (bits - 1) ≤ Bits.signExtend raw bits ∧
      Bits.signExtend raw bits ≤ 2 ^ (bits - 1) - 1 := by
  have hmodulus : 0 < 2 ^ bits := Nat.two_pow_pos bits
  have hlow := Int.le_bmod (x := (raw : Int)) hmodulus
  have hhigh := Int.bmod_lt (x := (raw : Int)) hmodulus
  rw [signExtend_eq_bmod raw hpos hle]
  push_cast at hlow hhigh
  rw [two_pow_half hpos] at hlow hhigh
  omega

/-- A number within the limits is the sign extension of its low bits. -/
theorem signExtend_emod {bits : Nat} {number : Int} (hpos : 0 < bits) (hle : bits ≤ 64)
    (hlow : -2 ^ (bits - 1) ≤ number) (hhigh : number ≤ 2 ^ (bits - 1) - 1) :
    Bits.signExtend (number % 2 ^ bits).toNat bits = number := by
  have hmodulus : (0 : Int) < 2 ^ bits := Int.pow_pos (by decide)
  have hcast : ((2 ^ bits : Nat) : Int) = 2 ^ bits := by push_cast; rfl
  rw [signExtend_eq_bmod _ hpos hle, Int.toNat_of_nonneg (Int.emod_nonneg _ (by omega)), ← hcast,
    Int.emod_bmod]
  apply Int.bmod_eq_of_le
  · rw [hcast, two_pow_half hpos]
    omega
  · rw [hcast, two_pow_half hpos]
    omega

/-- What a pattern decodes to passes the check of the type, at every width. -/
theorem normal_of_decode {type : LeafType} {pattern : Nat} {value : Scalar}
    (h : type.decode pattern = .ok value) : type.Normal value := by
  have hpos := type.bits_pos
  have hle := type.bits_le
  have hraw : pattern % 2 ^ type.bits < 2 ^ type.bits := Nat.mod_lt _ (Nat.two_pow_pos _)
  unfold decode at h
  unfold bits at *
  generalize pattern % 2 ^ type.shape.bits = raw at h hraw
  cases hshape : type.shape with
  | boolean bits =>
      simp only [hshape] at h
      cases h
      exact normal_bool hshape _
  | integer bits signed =>
      simp only [hshape, LeafShape.bits] at h hpos hle hraw
      cases signed with
      | true =>
          cases h
          obtain ⟨hlow, hhigh⟩ := signExtend_mem raw hpos hle
          exact normal_signed hshape hlow hhigh
      | false =>
          cases h
          exact normal_unsigned hshape hraw
  | nonZeroSize bits =>
      simp only [hshape, LeafShape.bits] at h hraw
      cases h
      exact normal_size hshape (Nat.le_add_left 1 raw) hraw
  | fixedPoint bits radix signed =>
      simp only [hshape, LeafShape.bits] at h hpos hle hraw
      cases signed with
      | true =>
          cases h
          obtain ⟨hlow, hhigh⟩ := signExtend_mem raw hpos hle
          exact normal_signed_scaled hshape hlow hhigh
      | false =>
          cases h
          exact normal_unsigned_scaled hshape hraw
  | enumeration table =>
      simp only [hshape] at h
      split at h
      · next hmember =>
          cases h
          exact normal_member hshape hmember
      · cases h

theorem normal_default (type : LeafType) : type.Normal type.default := by
  have hpos := type.bits_pos
  have hlegal := type.legal
  unfold bits at hpos
  unfold default
  cases hshape : type.shape with
  | boolean bits => exact normal_bool hshape false
  | integer bits signed =>
      have hhalf : (0 : Int) < 2 ^ (bits - 1) := Int.pow_pos (by decide)
      cases signed with
      | true => exact normal_signed hshape (by omega) (by omega)
      | false => exact normal_unsigned hshape (Nat.two_pow_pos bits)
  | nonZeroSize bits => exact normal_size hshape (Nat.le_refl 1) (Nat.two_pow_pos bits)
  | fixedPoint bits radix signed =>
      have hhalf : (0 : Int) < 2 ^ (bits - 1) := Int.pow_pos (by decide)
      have hzero : Binary64.zero = Binary64.ofScaled 0 radix := Binary64.ofScaled_zero radix
      cases signed with
      | true =>
          have hnumber : type.Normal (.float (.ofScaled (0 : Int) radix)) :=
            normal_signed_scaled hshape (by omega) (by omega)
          rw [hzero]
          exact hnumber
      | false =>
          have hnumber : type.Normal (.float (.ofScaled ((0 : Nat) : Int) radix)) :=
            normal_unsigned_scaled hshape (Nat.two_pow_pos bits)
          rw [hzero]
          exact hnumber
  | enumeration table =>
      rw [hshape] at hlegal
      exact normal_member hshape (EnumTable.symbol?_head (LeafShape.fault?_of_enumeration hlegal))

/-! ## Patterns -/

theorem decode_of_isFixedPoint {type : LeafType} (h : type.IsFixedPoint) (pattern : Nat) :
    ∃ value, type.decode pattern = .ok value := by
  obtain ⟨bits, radix, signed, hshape⟩ := h
  simp only [decode, hshape]
  exact ⟨_, rfl⟩

theorem toNat_emod_of_lt {number bits : Nat} (hlt : number < 2 ^ bits) :
    ((number : Int) % 2 ^ bits).toNat = number := by
  have hcast : (number : Int) < 2 ^ bits := by exact_mod_cast hlt
  rw [Int.emod_eq_of_lt (Int.natCast_nonneg number) hcast, Int.toNat_natCast]

theorem toNat_neg_one_emod_ne_zero {bits : Nat} (hpos : 0 < bits) :
    ((-1 : Int) % 2 ^ bits).toNat ≠ 0 := by
  have hhalf : (0 : Int) < 2 ^ (bits - 1) := Int.pow_pos (by decide)
  have hones : (-1 : Int) % 2 ^ bits = 2 ^ bits - 1 := by
    rw [← Int.add_emod_right, Int.emod_eq_of_lt]
    · omega
    · rw [two_pow_half hpos]
      omega
    · omega
  rw [hones, two_pow_half hpos]
  omega

theorem pattern_eq {type : LeafType} {shape : LeafShape} (hshape : type.shape = shape)
    {value : Scalar} {number : Int} (hnumber : type.wireNumber value = number) :
    type.pattern value = (number % 2 ^ shape.bits).toNat := by
  rw [pattern, LeafType.bits, hshape, hnumber]

/-- A normal value of a type that is not fixed-point is what its pattern decodes to. -/
theorem decode_pattern {type : LeafType} {value : Scalar} (h : type.Normal value)
    (hfixed : ¬ type.IsFixedPoint) : type.decode (type.pattern value) = .ok value := by
  have hpos := type.bits_pos
  have hle := type.bits_le
  have hlegal := type.legal
  have hform := coerce_eq_ok h
  have hraw : type.pattern value % 2 ^ type.bits = type.pattern value :=
    Nat.mod_eq_of_lt (pattern_lt type value)
  simp only [decode, hraw]
  rw [LeafType.bits] at hpos hle
  cases hshape : type.shape with
  | boolean bits =>
      simp only [hshape, LeafShape.bits] at hform hpos ⊢
      obtain ⟨bit, rfl⟩ := hform
      cases bit with
      | false =>
          have hnumber : type.wireNumber (.bool false) = 0 := by
            simp only [wireNumber, hshape]
          rw [pattern_eq hshape hnumber]
          simp
      | true =>
          have hnumber : type.wireNumber (.bool true) = -1 := by
            simp only [wireNumber, hshape]
          rw [pattern_eq hshape hnumber]
          simp [LeafShape.bits, toNat_neg_one_emod_ne_zero hpos]
  | integer bits signed =>
      simp only [hshape, LeafShape.bits] at hform hpos hle ⊢
      cases signed with
      | true =>
          obtain ⟨number, hlow, hhigh, rfl⟩ := hform
          have hnumber : type.wireNumber (.signed number) = number := by
            simp only [wireNumber, hshape]
          rw [pattern_eq hshape hnumber]
          simp only [LeafShape.bits, signExtend_emod hpos hle hlow hhigh]
      | false =>
          obtain ⟨number, hlt, rfl⟩ := hform
          have hnumber : type.wireNumber (.unsigned number) = number := by
            simp only [wireNumber, hshape]
          rw [pattern_eq hshape hnumber]
          simp only [LeafShape.bits, toNat_emod_of_lt hlt]
  | nonZeroSize bits =>
      simp only [hshape] at hform ⊢
      obtain ⟨number, hone, hmax, rfl⟩ := hform
      have hlt : number - 1 < 2 ^ bits := by omega
      have hnumber : type.wireNumber (.unsigned number) = (number - 1 : Nat) := by
        simp only [wireNumber, hshape]
      rw [pattern_eq hshape hnumber]
      simp only [LeafShape.bits, toNat_emod_of_lt hlt, Nat.sub_add_cancel hone]
  | fixedPoint bits radix signed => exact absurd ⟨bits, radix, signed, hshape⟩ hfixed
  | enumeration table =>
      rw [hshape] at hlegal
      simp only [hshape] at hform ⊢
      obtain ⟨number, hmember, rfl⟩ := hform
      have hlt : number < 2 ^ table.bits :=
        EnumTable.lt_of_symbol? (LeafShape.fault?_of_enumeration hlegal) hmember
      have hnumber : type.wireNumber (.unsigned number) = number := by
        simp only [wireNumber, hshape]
      rw [pattern_eq hshape hnumber]
      simp only [LeafShape.bits, toNat_emod_of_lt hlt, if_pos hmember]

theorem exists_decode_pattern {type : LeafType} {value : Scalar} (h : type.Normal value) :
    ∃ read, type.decode (type.pattern value) = .ok read := by
  by_cases hfixed : type.IsFixedPoint
  · exact decode_of_isFixedPoint hfixed (type.pattern value)
  · exact ⟨value, decode_pattern h hfixed⟩

/-- A normal value of a type that is not fixed-point equals itself; only a float may fail to. -/
theorem same_self_of_normal {type : LeafType} {value : Scalar} (h : type.Normal value)
    (hfixed : ¬ type.IsFixedPoint) : value.same value = true := by
  have hform := coerce_eq_ok h
  cases hshape : type.shape with
  | boolean bits =>
      simp only [hshape] at hform
      obtain ⟨bit, rfl⟩ := hform
      simp [Scalar.same]
  | integer bits signed =>
      cases signed with
      | true =>
          simp only [hshape] at hform
          obtain ⟨number, _, _, rfl⟩ := hform
          simp [Scalar.same]
      | false =>
          simp only [hshape] at hform
          obtain ⟨number, _, rfl⟩ := hform
          simp [Scalar.same]
  | nonZeroSize bits =>
      simp only [hshape] at hform
      obtain ⟨number, _, _, rfl⟩ := hform
      simp [Scalar.same]
  | fixedPoint bits radix signed => exact absurd ⟨bits, radix, signed, hshape⟩ hfixed
  | enumeration table =>
      simp only [hshape] at hform
      obtain ⟨number, _, rfl⟩ := hform
      simp [Scalar.same]

end LeafType

end RadioPacket
