import RadioPacket.Proofs.Bits.Window
import RadioPacket.Proofs.Leaf.Normal

/-!
# Canonical bits of a leaf

A leaf field may be written in more than one way: any bit of a boolean makes it true, and a
fixed-point number may be rounded.  Decoding and encoding again gives the canonical bits, in which
a boolean is spread over its whole width, a fixed-point number has the pattern of the value it
decodes to, and every other leaf keeps the bits it had.
-/

namespace RadioPacket

namespace LeafType

/-- The bits of a leaf field once they have been decoded and encoded again. -/
def canonical (type : LeafType) (bits : List Bool) : List Bool :=
  match type.shape with
  | .boolean width => List.replicate width (bits.any id)
  | .fixedPoint _ _ _ =>
      match type.decode (Bits.toNat bits) >>= type.encode with
      | .ok pattern => Bits.ofNat type.bits pattern
      | .error _ => bits
  | _ => bits

/-- The pattern of the value that a number decodes to decodes to a value with that same pattern. -/
def Settles (type : LeafType) (raw : Nat) : Prop :=
  ∀ value pattern, type.decode raw = .ok value → type.encode value = .ok pattern →
    ∃ again, type.decode pattern = .ok again ∧ type.encode again = .ok pattern

variable {type : LeafType} {bits : List Bool}

theorem signExtend_toNat_emod {width raw : Nat} (hpos : 0 < width) (hle : width ≤ 64)
    (hraw : raw < 2 ^ width) :
    (Bits.signExtend raw width % 2 ^ width).toNat = raw := by
  have hcast : ((2 ^ width : Nat) : Int) = 2 ^ width := by push_cast; rfl
  rw [signExtend_eq_bmod raw hpos hle, ← hcast, Int.bmod_emod, hcast]
  exact toNat_emod_of_lt hraw

theorem mask_bits (type : LeafType) : Bits.mask type.bits = 2 ^ type.bits - 1 := by
  rw [Bits.mask, Nat.min_eq_left (show type.bits ≤ Bits.maxWidth from type.bits_le)]

theorem pattern_bool {width : Nat} (hshape : type.shape = .boolean width) (value : Bool) :
    type.pattern (.bool value) = if value then Bits.mask type.bits else 0 := by
  cases value with
  | false =>
      have hnumber : type.wireNumber (.bool false) = 0 := by
        simp only [wireNumber, hshape]
      rw [pattern, hnumber]
      rfl
  | true =>
      have hnumber : type.wireNumber (.bool true) = -1 := by
        simp only [wireNumber, hshape]
      have hcast : ((2 ^ type.bits : Nat) : Int) = 2 ^ type.bits := by push_cast; rfl
      have hone : 1 ≤ 2 ^ type.bits := Nat.one_le_two_pow
      rw [pattern, hnumber, if_pos rfl, mask_bits, ← Int.add_emod_right, Int.emod_eq_of_lt]
      · omega
      · omega
      · omega

theorem ofNat_pattern_bool {width : Nat} (hshape : type.shape = .boolean width) (value : Bool) :
    Bits.ofNat width (type.pattern (.bool value)) = List.replicate width value := by
  have hwidth : type.bits = width := by rw [LeafType.bits, hshape]; rfl
  have hle := type.bits_le
  rw [pattern_bool hshape, hwidth]
  cases value with
  | false => exact Bits.ofNat_zero width
  | true => exact Bits.ofNat_mask (hwidth ▸ hle)

/-- An integer, a size and a symbol have the pattern that they were decoded from. -/
theorem pattern_of_decode {raw : Nat} {value : Scalar} (hraw : raw < 2 ^ type.bits)
    (h : type.decode raw = .ok value) (hboolean : ∀ width, type.shape ≠ .boolean width)
    (hfixed : ¬ type.IsFixedPoint) : type.pattern value = raw := by
  have hpos := type.bits_pos
  have hle := type.bits_le
  simp only [decode, Nat.mod_eq_of_lt hraw] at h
  cases hshape : type.shape with
  | boolean width => exact absurd hshape (hboolean width)
  | fixedPoint width radix signed => exact absurd ⟨width, radix, signed, hshape⟩ hfixed
  | integer width signed =>
      simp only [hshape] at h
      rw [LeafType.bits, hshape] at hpos hle hraw
      cases signed with
      | true =>
          cases h
          have hnumber : type.wireNumber (.signed (Bits.signExtend raw width)) =
              Bits.signExtend raw width := by
            simp only [wireNumber, hshape]
          rw [pattern_eq hshape hnumber]
          exact signExtend_toNat_emod hpos hle hraw
      | false =>
          cases h
          have hnumber : type.wireNumber (.unsigned raw) = raw := by
            simp only [wireNumber, hshape]
          rw [pattern_eq hshape hnumber]
          exact toNat_emod_of_lt hraw
  | nonZeroSize width =>
      simp only [hshape] at h
      rw [LeafType.bits, hshape] at hraw
      cases h
      have hnumber : type.wireNumber (.unsigned (raw + 1)) = raw := by
        simp only [wireNumber, hshape, Nat.add_sub_cancel]
      rw [pattern_eq hshape hnumber]
      exact toNat_emod_of_lt hraw
  | enumeration table =>
      simp only [hshape] at h
      rw [LeafType.bits, hshape] at hraw
      split at h
      · cases h
        have hnumber : type.wireNumber (.unsigned raw) = raw := by
          simp only [wireNumber, hshape]
        rw [pattern_eq hshape hnumber]
        exact toNat_emod_of_lt hraw
      · cases h

/-- Encoding a decoded leaf gives its canonical bits. -/
theorem ofNat_pattern_of_decode {value : Scalar} (hlength : bits.length = type.bits)
    (h : type.decode (Bits.toNat bits) = .ok value) :
    Bits.ofNat type.bits (type.pattern value) = type.canonical bits := by
  have hraw : Bits.toNat bits < 2 ^ type.bits := hlength ▸ Bits.toNat_lt bits
  have hkept : (∀ width, type.shape ≠ .boolean width) → ¬ type.IsFixedPoint →
      Bits.ofNat type.bits (type.pattern value) = bits := by
    intro hboolean hfixed
    rw [pattern_of_decode hraw h hboolean hfixed, ← hlength, Bits.ofNat_toNat]
  have hencode := encode_of_normal (normal_of_decode h)
  unfold canonical
  split
  · next width hshape =>
      have hwidth : type.bits = width := by rw [LeafType.bits, hshape]; rfl
      simp only [decode, Nat.mod_eq_of_lt hraw, hshape] at h
      cases h
      rw [hwidth, ofNat_pattern_bool hshape, Bits.toNat_ne_zero]
  · have hbind : type.decode (Bits.toNat bits) >>= type.encode = .ok (type.pattern value) := by
      rw [h]
      exact hencode
    rw [hbind]
  · next hboolean hother =>
      apply hkept hboolean
      rintro ⟨width, radix, signed, hshape⟩
      exact hother width radix signed hshape

@[simp] theorem length_canonical (hlength : bits.length = type.bits) :
    (type.canonical bits).length = type.bits := by
  simp only [canonical]
  split
  · next width hshape =>
      rw [List.length_replicate, LeafType.bits, hshape]
      rfl
  · split
    · rw [Bits.length_ofNat]
    · exact hlength
  · exact hlength

theorem canonical_canonical (hlength : bits.length = type.bits)
    (hsettles : type.IsFixedPoint → type.Settles (Bits.toNat bits)) :
    type.canonical (type.canonical bits) = type.canonical bits := by
  cases hshape : type.shape with
  | boolean width =>
      have hpos := type.bits_pos
      rw [LeafType.bits, hshape, LeafShape.bits] at hpos
      have hany : (List.replicate width (bits.any id)).any id = bits.any id := by
        rw [List.any_replicate, if_neg (by omega)]
        rfl
      simp only [canonical, hshape, hany]
  | integer width signed => simp only [canonical, hshape]
  | nonZeroSize width => simp only [canonical, hshape]
  | fixedPoint width radix signed =>
      have hfixed : type.IsFixedPoint := ⟨width, radix, signed, hshape⟩
      obtain ⟨value, hvalue⟩ := decode_of_isFixedPoint hfixed (Bits.toNat bits)
      have hencode := encode_of_normal (normal_of_decode hvalue)
      have hfirst : type.canonical bits = Bits.ofNat type.bits (type.pattern value) :=
        (ofNat_pattern_of_decode hlength hvalue).symm
      have hnumber : Bits.toNat (Bits.ofNat type.bits (type.pattern value)) =
          type.pattern value := by
        rw [Bits.toNat_ofNat, Nat.mod_eq_of_lt (type.pattern_lt value)]
      obtain ⟨again, hagain, hpattern⟩ := hsettles hfixed value _ hvalue hencode
      rw [encode_of_normal (normal_of_decode hagain), Except.ok.injEq] at hpattern
      rw [← hnumber] at hagain
      rw [hfirst, ← ofNat_pattern_of_decode (Bits.length_ofNat _ _) hagain, hpattern]
  | enumeration table => simp only [canonical, hshape]

end LeafType

end RadioPacket
