import RadioPacket.Proofs.Leaf.Canonical
import RadioPacket.Proofs.Leaf.Table
import RadioPacket.Proofs.Leaf.Words

/-!
# Exact codecs

Types that are not fixed-point lose nothing.  An integer is accepted by its number alone, whichever
kind it comes in, and keeps this number; what is accepted fits the width and reads back as what it
became; and what is read from a word is written back as the low bits of the word, except that a
boolean is spread over them.  All of this holds of the codec that computes with words of 64 bits,
which comes to the same.
-/

namespace RadioPacket

namespace LeafType

variable {type : LeafType}

/-- The codec of the type loses nothing. -/
structure CodesExactly (type : LeafType) : Prop where
  /-- An integer or a size takes the numbers between its limits. -/
  accepts_range : ∀ low high, type.intRange? = some (low, high) → ∀ value number,
    value.integer? = some number →
      ((∃ normal, type.coerce value = .ok normal) ↔ low ≤ number ∧ number ≤ high)
  /-- An enumeration takes the numbers that it declares. -/
  accepts_declared : ∀ table, type.table? = some table → ∀ value number,
    value.integer? = some number →
      ((∃ normal, type.coerce value = .ok normal) ↔
        ∃ entry ∈ table.symbols, (entry.2 : Int) = number)
  /-- An integer keeps its number, unless a boolean is made of it. -/
  keeps : (∀ width, type.shape ≠ .boolean width) → ∀ value number normal,
    value.integer? = some number → type.coerce value = .ok normal → normal.integer? = some number
  /-- What is accepted fits the width, and reads back as what it became. -/
  reads_back : ∀ value normal, type.coerce value = .ok normal →
    ∃ pattern, type.encode value = .ok pattern ∧ pattern ≤ Bits.mask type.bits ∧
      type.decode pattern = .ok normal
  /-- Only the low bits of a word count. -/
  low_bits : ∀ raw other, raw &&& Bits.mask type.bits = other &&& Bits.mask type.bits →
    type.decode raw = type.decode other
  /-- A word is refused exactly when its low bits are a value that an enumeration does not
  declare. -/
  refuses : ∀ raw error, type.decode raw = .error error ↔
    ∃ table, type.table? = some table ∧
      (∀ entry ∈ table.symbols, entry.2 ≠ raw &&& Bits.mask type.bits) ∧
      error = .notMember table.name (toString (raw &&& Bits.mask type.bits))
  /-- What is read from a word is written as the low bits of the word. -/
  writes_back : (∀ width, type.shape ≠ .boolean width) → ∀ raw value,
    type.decode raw = .ok value → type.encode value = .ok (raw &&& Bits.mask type.bits)
  /-- A boolean is written as all ones or as zero. -/
  writes_boolean : ∀ width, type.shape = .boolean width → ∀ raw value,
    type.decode raw = .ok value →
      type.encode value =
        .ok (if raw &&& Bits.mask type.bits = 0 then 0 else Bits.mask type.bits)

/-! ## Accepting -/

theorem coerce_eq_coerceInt {low high : Int} (hrange : type.intRange? = some (low, high)) :
    ∃ normal : Int → Scalar, (∀ value, type.coerce value = type.coerceInt low high normal value) ∧
      ∀ number, low ≤ number → (normal number).integer? = some number := by
  unfold intRange? at hrange
  split at hrange
  · next bits hshape =>
      cases hrange
      refine ⟨.signed, ?_, fun number _ => rfl⟩
      intro value
      rw [coerce, hshape]
  · next bits hshape =>
      cases hrange
      refine ⟨fun number => .unsigned number.toNat, ?_, ?_⟩
      · intro value
        rw [coerce, hshape]
      · intro number hlow
        rw [Scalar.integer?, Int.toNat_of_nonneg hlow]
  · next bits hshape =>
      cases hrange
      refine ⟨fun number => .unsigned number.toNat, ?_, ?_⟩
      · intro value
        rw [coerce, hshape]
      · intro number hlow
        rw [Scalar.integer?, Int.toNat_of_nonneg (by omega)]
  · cases hrange

theorem coerce_of_intRange? {low high number : Int} (hrange : type.intRange? = some (low, high))
    {value : Scalar} (hnumber : value.integer? = some number) :
    ((∃ normal, type.coerce value = .ok normal) ↔ low ≤ number ∧ number ≤ high) ∧
      ∀ normal, type.coerce value = .ok normal → normal.integer? = some number := by
  obtain ⟨normal, hcoerce, hkeeps⟩ := coerce_eq_coerceInt hrange
  have hresult : type.coerce value = if number < low ∨ high < number then
      .error (.range value (.signed low) (.signed high)) else .ok (normal number) := by
    rw [hcoerce, coerceInt, hnumber]
  rw [hresult]
  by_cases hout : number < low ∨ high < number
  · rw [if_pos hout]
    refine ⟨iff_of_false ?_ (by omega), ?_⟩
    · rintro ⟨_, ⟨⟩⟩
    · rintro _ ⟨⟩
  · rw [if_neg hout]
    refine ⟨iff_of_true ⟨_, rfl⟩ (by omega), ?_⟩
    intro result hnormal
    rw [← Except.ok.inj hnormal]
    exact hkeeps number (by omega)

theorem coerce_of_table? {table : EnumTable} (htable : type.table? = some table) {value : Scalar}
    {number : Int} (hnumber : value.integer? = some number) :
    ((∃ normal, type.coerce value = .ok normal) ↔
        ∃ entry ∈ table.symbols, (entry.2 : Int) = number) ∧
      ∀ normal, type.coerce value = .ok normal → normal.integer? = some number := by
  have hresult : type.coerce value =
      if 0 ≤ number ∧ (table.symbol? number.toNat).isSome then .ok (.unsigned number.toNat)
      else .error (.notMember table.name value.text) := by
    rw [coerce, table?_eq_some.mp htable]
    simp only [hnumber]
  have hdeclared : (0 ≤ number ∧ (table.symbol? number.toNat).isSome) ↔
      ∃ entry ∈ table.symbols, (entry.2 : Int) = number := by
    rw [EnumTable.isSome_symbol?_iff]
    constructor
    · rintro ⟨hnonneg, entry, hentry, hvalue⟩
      exact ⟨entry, hentry, by omega⟩
    · rintro ⟨entry, hentry, rfl⟩
      exact ⟨Int.natCast_nonneg _, entry, hentry, (Int.toNat_natCast _).symm⟩
  rw [hresult, ← hdeclared]
  by_cases hmember : 0 ≤ number ∧ (table.symbol? number.toNat).isSome
  · rw [if_pos hmember]
    refine ⟨iff_of_true ⟨_, rfl⟩ hmember, ?_⟩
    intro normal hnormal
    rw [← Except.ok.inj hnormal, Scalar.integer?, Int.toNat_of_nonneg hmember.1]
  · rw [if_neg hmember]
    refine ⟨iff_of_false ?_ hmember, ?_⟩
    · rintro ⟨_, ⟨⟩⟩
    · rintro _ ⟨⟩

/-! ## Patterns -/

theorem and_mask (type : LeafType) (raw : Nat) :
    raw &&& Bits.mask type.bits = raw % 2 ^ type.bits := by
  rw [mask_bits, Nat.and_two_pow_sub_one_eq_mod]

theorem decode_low (type : LeafType) (raw : Nat) :
    type.decode (raw % 2 ^ type.bits) = type.decode raw := by
  simp only [decode, Nat.mod_mod]

theorem decode_eq_error_iff {raw : Nat} {error : ValueError} :
    type.decode raw = .error error ↔
      ∃ table, type.table? = some table ∧
        (∀ entry ∈ table.symbols, entry.2 ≠ raw % 2 ^ type.bits) ∧
        error = .notMember table.name (toString (raw % 2 ^ type.bits)) := by
  constructor
  · intro h
    simp only [decode] at h
    split at h
    · cases h
    · cases h
    · cases h
    · cases h
    · cases h
    · next table hshape =>
        split at h
        · cases h
        · next hunknown =>
            cases h
            refine ⟨table, table?_eq_some.mpr hshape, ?_, rfl⟩
            intro entry hentry hvalue
            exact hunknown (EnumTable.isSome_symbol?_iff.mpr ⟨entry, hentry, hvalue⟩)
  · rintro ⟨table, htable, hundeclared, rfl⟩
    rw [decode, table?_eq_some.mp htable]
    apply if_neg
    intro hmember
    obtain ⟨entry, hentry, hvalue⟩ := EnumTable.isSome_symbol?_iff.mp hmember
    exact hundeclared entry hentry hvalue

theorem exists_intRange?_or_table? (hboolean : ∀ width, type.shape ≠ .boolean width)
    (hfixed : ¬ type.IsFixedPoint) :
    (∃ low high, type.intRange? = some (low, high)) ∨ ∃ table, type.table? = some table := by
  cases hshape : type.shape with
  | boolean width => exact absurd hshape (hboolean width)
  | fixedPoint width radix signed => exact absurd ⟨width, radix, signed, hshape⟩ hfixed
  | integer width signed =>
      cases signed with
      | true => exact .inl ⟨_, _, by rw [intRange?, hshape]⟩
      | false => exact .inl ⟨_, _, by rw [intRange?, hshape]⟩
  | nonZeroSize width => exact .inl ⟨_, _, by rw [intRange?, hshape]⟩
  | enumeration table => exact .inr ⟨table, table?_eq_some.mpr hshape⟩

/-- Every type that is not fixed-point, of every width, codes exactly. -/
theorem codesExactly (hfixed : ¬ type.IsFixedPoint) : type.CodesExactly where
  accepts_range _ _ hrange _ _ hnumber := (coerce_of_intRange? hrange hnumber).1
  accepts_declared _ htable _ _ hnumber := (coerce_of_table? htable hnumber).1
  keeps hboolean value number normal hnumber hnormal := by
    obtain ⟨low, high, hrange⟩ | ⟨table, htable⟩ := exists_intRange?_or_table? hboolean hfixed
    · exact (coerce_of_intRange? hrange hnumber).2 normal hnormal
    · exact (coerce_of_table? htable hnumber).2 normal hnormal
  reads_back value normal hnormal := by
    have hread := normal_of_coerce hnormal
    refine ⟨type.pattern normal, ?_, ?_, decode_pattern hread hfixed⟩
    · rw [encode, hnormal]
      rfl
    · rw [mask_bits]
      exact Nat.le_sub_one_of_lt (type.pattern_lt normal)
  low_bits raw other hlow := by
    rw [and_mask, and_mask] at hlow
    rw [← type.decode_low raw, hlow, decode_low]
  refuses raw error := by
    rw [and_mask]
    exact decode_eq_error_iff
  writes_back hboolean raw value hvalue := by
    rw [← decode_low] at hvalue
    have hlt := Nat.mod_lt raw (Nat.two_pow_pos type.bits)
    rw [and_mask, encode_of_normal (normal_of_decode hvalue),
      pattern_of_decode hlt hvalue hboolean hfixed]
  writes_boolean width hshape raw value hvalue := by
    rw [encode_of_normal (normal_of_decode hvalue), and_mask]
    rw [decode, hshape] at hvalue
    rw [← Except.ok.inj hvalue, pattern_bool hshape]
    by_cases hzero : raw % 2 ^ type.bits = 0
    · rw [if_pos hzero, hzero]
      rfl
    · rw [if_neg hzero, if_pos (bne_iff_ne.mpr hzero)]

/-- Every type that is not fixed-point codes exactly, on numbers and on words alike. -/
theorem exact_and_runsOnWords (type : LeafType) (hfixed : ¬ type.IsFixedPoint) :
    type.CodesExactly ∧ type.RunsOnWords :=
  ⟨codesExactly hfixed, type.runsOnWords⟩

namespace Sample

/-- The widest size, from one to `2 ^ 63`. -/
def widestSize : LeafType := ⟨.nonZeroSize 63, by decide⟩

/-- The largest size is accepted, the next number is not, and it is written as all ones.  On words,
a word with its highest bit set reads as the largest size too. -/
theorem widestSize_limit :
    (∃ normal, widestSize.coerce (.unsigned (2 ^ 63)) = .ok normal) ∧
      (¬ ∃ normal, widestSize.coerce (.unsigned (2 ^ 63 + 1)) = .ok normal) ∧
      widestSize.encode (.unsigned (2 ^ 63)) = .ok (Bits.mask 63) ∧
      (widestSize.decodeWord (BitVec.allOnes 64)).map WordScalar.scalar =
        .ok (.unsigned (2 ^ 63)) := by
  obtain ⟨hexact, hwords⟩ := exact_and_runsOnWords widestSize (by rintro ⟨_, _, _, ⟨⟩⟩)
  have hrange : widestSize.intRange? = some (1, 2 ^ 63) := rfl
  have hread : widestSize.decode (2 ^ 64 - 1) = .ok (.unsigned (2 ^ 63)) := by decide
  have hnumber (number : Nat) : (Scalar.unsigned number).integer? = some (number : Int) := rfl
  refine ⟨?_, ?_, ?_, ?_⟩
  · exact (hexact.accepts_range _ _ hrange _ _ (hnumber _)).mpr (by decide)
  · rw [hexact.accepts_range _ _ hrange _ _ (hnumber _)]
    decide
  · exact hexact.writes_back nofun _ _ hread
  · rw [hwords.decode, BitVec.toNat_allOnes]
    exact hread

end Sample

end LeafType

end RadioPacket
