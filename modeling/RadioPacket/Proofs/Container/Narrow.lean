import RadioPacket.Proofs.Container.Canonical
import RadioPacket.Proofs.Leaf.FixedPoint

/-!
# Narrow fixed-point fields

A fixed-point pattern of at most 53 bits counts fewer steps than a double has room for.  So its
value is the exact quotient, lies within the limits of the type, and scales back to the same steps:
nothing is rounded on the way.  Such a field therefore keeps its bits when a structure is decoded
and encoded again, whatever else the structure holds.
-/

namespace RadioPacket

namespace LeafType

variable {type : LeafType} {bits radix raw : Nat} {signed : Bool}

/-- The number that a pattern counts: the pattern itself, and in signed types less the whole span
from the middle on. -/
def stepsOf (bits : Nat) (signed : Bool) (raw : Nat) : Int :=
  if signed ∧ 2 ^ (bits - 1) ≤ raw then raw - 2 ^ bits else raw

theorem stepsOf_mem (signed : Bool) (hpos : 0 < bits) (hraw : raw < 2 ^ bits) :
    lowestSteps bits signed ≤ stepsOf bits signed raw ∧
      stepsOf bits signed raw < limitSteps bits signed := by
  have hcast : (raw : Int) < 2 ^ bits := by exact_mod_cast hraw
  have hhalf := two_pow_half hpos
  cases signed with
  | false =>
      simp only [stepsOf, lowestSteps, limitSteps, Bool.false_eq_true, false_and, if_false]
      omega
  | true =>
      have hmiddle : ((2 ^ (bits - 1) : Nat) : Int) = 2 ^ (bits - 1) := by push_cast; rfl
      simp only [stepsOf, lowestSteps, limitSteps, true_and, if_true]
      split
      · omega
      · omega

theorem stepsOf_emod (hraw : raw < 2 ^ bits) :
    (stepsOf bits signed raw % 2 ^ bits).toNat = raw := by
  rw [stepsOf]
  split
  · rw [Int.sub_emod_right]
    exact toNat_emod_of_lt hraw
  · exact toNat_emod_of_lt hraw

theorem natAbs_stepsOf_lt (hpos : 0 < bits) (hnarrow : bits ≤ 53) (hraw : raw < 2 ^ bits) :
    (stepsOf bits signed raw).natAbs < 2 ^ 53 := by
  obtain ⟨hlow, hhigh⟩ := stepsOf_mem signed hpos hraw
  cases signed with
  | false =>
      have hlimit : (2 : Int) ^ bits ≤ 2 ^ 53 := pow_le_pow_right₀ (by decide) hnarrow
      simp only [lowestSteps, limitSteps, Bool.false_eq_true, if_false] at hlow hhigh
      omega
  | true =>
      have hlimit : (2 : Int) ^ (bits - 1) ≤ 2 ^ 52 := pow_le_pow_right₀ (by decide) (by omega)
      simp only [lowestSteps, limitSteps, if_true] at hlow hhigh
      omega

/-- A pattern of a narrow fixed-point type stands for the exact quotient, which is accepted and has
this pattern. -/
theorem narrow_exact (hshape : type.shape = .fixedPoint bits radix signed) (hnarrow : bits ≤ 53)
    (hraw : raw < 2 ^ bits) :
    ∃ number, type.decode raw = .ok (.float number) ∧ number.isFinite = true ∧
      number.exact = stepsOf bits signed raw / 2 ^ radix ∧
      type.coerce (.float number) = .ok (.float number) ∧
      type.encode (.float number) = .ok raw := by
  obtain ⟨hpos, hbits, hradixbits⟩ := bits_of_fixedPoint hshape
  have hradix : radix ≤ 64 := hradixbits.trans hbits
  let steps := stepsOf bits signed raw
  let number := Binary64.ofScaled steps radix
  obtain ⟨hlow, hhigh⟩ := stepsOf_mem signed hpos hraw
  have hsmall : steps.natAbs < 2 ^ 53 := natAbs_stepsOf_lt hpos hnarrow hraw
  have hexact : number.exact = steps / 2 ^ radix :=
    Binary64.exact_ofScaled (Binary64.isShort_of_lt hsmall) (by omega) hradix
  have hdecode : type.decode raw = .ok (.float number) := by
    have hread := decode_eq hshape hlow hhigh
    rwa [stepsOf_emod hraw] at hread
  have hnormal := normal_of_decode hdecode
  obtain ⟨_, hsame, hadmitted⟩ := admitted_of_coerce hshape hnormal
  obtain rfl := Scalar.float.inj hsame
  -- The number scales back to a whole number, so rounding has nothing to do.
  have hsteps : number.roundScaled radix = steps := by
    have hscale : (2 : ℚ) ^ radix ≠ 0 := by positivity
    have hnear := Binary64.roundScaled_near radix hadmitted.ordinary
    rw [hexact, div_mul_cancel₀ _ hscale] at hnear
    obtain ⟨hbelow, habove⟩ := abs_le.mp hnear
    have hlower : (steps : ℚ) < number.roundScaled radix + 1 := by linarith
    have hupper : (number.roundScaled radix : ℚ) < steps + 1 := by linarith
    have : steps < number.roundScaled radix + 1 := by exact_mod_cast hlower
    have : number.roundScaled radix < steps + 1 := by exact_mod_cast hupper
    omega
  have hwire : type.wireNumber (.float number) = clampWord signed (number.roundScaled radix) := by
    simp only [wireNumber, hshape]
  rw [hsteps, clampWord_eq hpos hbits hlow hhigh.le (.inr hhigh)] at hwire
  refine ⟨number, hdecode, hadmitted.isFinite hbits hradix, hexact, hnormal, ?_⟩
  rw [encode_of_normal hnormal, pattern_eq hshape hwire, LeafShape.bits, stepsOf_emod hraw]

theorem canonical_of_narrow (hfixed : type.IsFixedPoint) (hnarrow : type.bits ≤ 53)
    {window : List Bool} (hlength : window.length = type.bits) :
    type.canonical window = window := by
  obtain ⟨width, radix, signed, hshape⟩ := hfixed
  have hwidth : type.bits = width := by rw [LeafType.bits, hshape]; rfl
  have hraw : Bits.toNat window < 2 ^ width := hwidth ▸ hlength ▸ Bits.toNat_lt window
  obtain ⟨number, hdecode, _, _, _, hencode⟩ := narrow_exact hshape (hwidth ▸ hnarrow) hraw
  have hbind : type.decode (Bits.toNat window) >>= type.encode = .ok (Bits.toNat window) := by
    rw [hdecode]
    exact hencode
  simp only [canonical, hshape, hbind]
  rw [← hlength, Bits.ofNat_toNat]

end LeafType

namespace Layout

/-- In bytes that hold the canonical bits of other bytes at the same place, each leaf field that is
present there finds its own canonical bits, at any depth. -/
theorem Built.window_of_presentLeaf {layout : Layout} (h : layout.Built) (data other : Bytes) :
    ∀ base, Bits.window other base layout.bits = layout.canonical data base →
      ∀ site ∈ layout.presentLeaves data base,
        Bits.window other site.position site.type.bits =
          site.type.canonical (Bits.window data site.position site.type.bits) := by
  refine h.induct ?_
  intro layout h ih base hwindow site hsite
  rw [presentLeaves_eq_flatMap] at hsite
  obtain ⟨slot, hslot, hsite⟩ := List.mem_flatMap.mp hsite
  have hpiece := h.window_canonical hwindow slot hslot
  have hinner := ih slot hslot
  obtain ⟨item, position, link⟩ := slot
  rcases item with ⟨name, type, mode, enabledBy, editable, bit⟩ | enable | run
  · simp only [Slot.presentLeaves] at hsite
    simp only [Slot.canonical] at hpiece
    split at hsite
    · next hopen =>
        rw [if_pos hopen] at hpiece
        cases type with
        | leaf type =>
            obtain rfl := List.mem_singleton.mp hsite
            exact hpiece
        | record inner => exact hinner inner rfl _ hpiece site hsite
    · cases hsite
  · cases hsite
  · cases hsite

/-- Fixed-point patterns of at most 53 bits are preserved.  The value of a pattern is finite and is
exactly the number that the pattern counts over `2 ^ radix`; the type accepts it as it is, and
writes the same pattern again.  So a present fixed-point field of at most 53 bits, at any depth of a
structure, has the same bits once the structure has been decoded and encoded again. -/
theorem narrow_fixedPoint_preserved :
    (∀ (type : LeafType) (bits radix : Nat) (signed : Bool),
      type.shape = .fixedPoint bits radix signed → bits ≤ 53 → ∀ raw ≤ Bits.mask bits,
        ∃ number : Binary64, type.decode raw = .ok (.float number) ∧ number.isFinite = true ∧
          number.exact = LeafType.stepsOf bits signed raw / 2 ^ radix ∧
          type.coerce (.float number) = .ok (.float number) ∧
          type.encode (.float number) = .ok raw) ∧
      ∀ layout : Layout, layout.Built → ∀ (data : Bytes) (c : Container),
        Container.unpack layout data = .ok c → ∀ site ∈ layout.presentLeaves data 0,
          site.type.IsFixedPoint → site.type.bits ≤ 53 →
            Bits.window c.pack site.position site.type.bits =
              Bits.window data site.position site.type.bits := by
  constructor
  · intro type bits radix signed hshape hnarrow raw hraw
    have hwidth : type.bits = bits := by rw [LeafType.bits, hshape]; rfl
    have hmask := type.mask_bits
    have hspan := Nat.two_pow_pos bits
    rw [hwidth] at hmask
    exact LeafType.narrow_exact hshape hnarrow (by omega)
  · intro layout h data c hunpack site hsite hfixed hnarrow
    obtain ⟨hfits, hlayout, hstream⟩ := h.stream_of_unpack hunpack
    subst hlayout
    have hwindow := hfits.window_pack
    rw [hstream] at hwindow
    rw [h.window_of_presentLeaf data c.pack 0 hwindow site hsite]
    exact LeafType.canonical_of_narrow hfixed hnarrow (Bits.length_window _ _ _)

namespace Sample

/-- The widest narrow numbers, from minus a half to just below a half. -/
def fraction : LeafType := ⟨.fixedPoint 53 53 true, by decide⟩

/-- The lowest fraction is exactly minus a half and keeps its pattern, and the level of a structure
keeps its bits although ones in reserved bits are lost. -/
theorem fraction_and_level_preserved :
    (∃ number : Binary64, fraction.decode (2 ^ 52) = .ok (.float number) ∧
      number.exact = -1 / 2 ∧ fraction.encode (.float number) = .ok (2 ^ 52)) ∧
      ∃ c, Container.unpack fullLayout #[246, 7, 255] = .ok c ∧
        Bits.window c.pack 6 8 = Bits.window #[246, 7, 255] 6 8 := by
  obtain ⟨hpatterns, hstructures⟩ := narrow_fixedPoint_preserved
  constructor
  · obtain ⟨number, hdecode, _, hexact, _, hencode⟩ :=
      hpatterns fraction 53 53 true rfl (by decide) (2 ^ 52) (by decide)
    refine ⟨number, hdecode, ?_, hencode⟩
    rw [hexact]
    norm_num [LeafType.stepsOf]
  · have hsize : fullLayout.bytes ≤ (#[246, 7, 255] : Bytes).size := by decide
    have hfault : Fallible.error? (Container.unpack fullLayout #[246, 7, 255]) = none := by
      rw [built_fullLayout.error?_unpack hsize]
      decide +kernel
    obtain ⟨c, hc⟩ := Fallible.error?_eq_none.mp hfault
    have hsite : ⟨"level", level, 6⟩ ∈ fullLayout.presentLeaves #[246, 7, 255] 0 :=
      List.mem_cons_of_mem _ List.mem_cons_self
    exact ⟨c, hc, hstructures fullLayout built_fullLayout _ c hc _ hsite ⟨8, 4, true, rfl⟩
      (by decide)⟩

end Sample

end Layout

end RadioPacket
