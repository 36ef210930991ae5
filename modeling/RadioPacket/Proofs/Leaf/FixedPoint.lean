import RadioPacket.Proofs.Leaf.Normal
import RadioPacket.Proofs.Number.Exact

/-!
# Fixed-point values

A fixed-point type counts steps of a power of two, and the value that comes back from a pattern
should be at most half a step away from the value that was given.  The greatest number of a type
whose patterns have more than 53 bits is no double, so the upper limit of its range is rounded up
to the first number that has no pattern.  That one number is accepted, and unless a word of 64 bits
holds it back it is encoded like the lowest number of the type.  All other values come back as they
should, and this module says so exactly.
-/

namespace RadioPacket

namespace LeafType

/-- The steps of the lowest number of a fixed-point type. -/
def lowestSteps (bits : Nat) (signed : Bool) : Int := if signed then -2 ^ (bits - 1) else 0

/-- The steps of the first number above those of a fixed-point type. -/
def limitSteps (bits : Nat) (signed : Bool) : Int := 2 ^ (if signed then bits - 1 else bits)

/-- The number is the first one above those that have a pattern, and a word has room for it. -/
def Overshoots (bits radix : Nat) (signed : Bool) (number : Binary64) : Prop :=
  bits < 64 ∧ number.exact = limitSteps bits signed / 2 ^ radix

variable {type : LeafType} {bits radix : Nat} {signed : Bool}

/-! ## The range -/

theorem limit_sub_lowest (signed : Bool) (hpos : 0 < bits) :
    limitSteps bits signed - lowestSteps bits signed = 2 ^ bits := by
  cases signed with
  | false => simp [limitSteps, lowestSteps]
  | true =>
      simp only [limitSteps, lowestSteps, if_true, two_pow_half hpos]
      omega

theorem natAbs_limitSteps (bits : Nat) (signed : Bool) :
    (limitSteps bits signed).natAbs = 2 ^ (if signed then bits - 1 else bits) := by
  rw [limitSteps, Int.natAbs_pow]
  rfl

theorem limitSteps_pos (bits : Nat) (signed : Bool) : 0 < limitSteps bits signed :=
  Int.pow_pos (by decide)

theorem isShort_limitSteps (bits : Nat) (signed : Bool) :
    Binary64.IsShort (limitSteps bits signed).natAbs := by
  rw [natAbs_limitSteps]
  exact Binary64.isShort_two_pow _

theorem limitSteps_le (signed : Bool) (hbits : bits ≤ 64) :
    (limitSteps bits signed).natAbs ≤ 2 ^ 64 := by
  rw [natAbs_limitSteps]
  apply Nat.pow_le_pow_right (by decide)
  split
  · omega
  · exact hbits

theorem lowestSteps_eq (bits : Nat) (signed : Bool) : lowestSteps bits signed = 0 ∨
    lowestSteps bits signed = -limitSteps bits signed := by
  cases signed with
  | false => exact .inl rfl
  | true => exact .inr rfl

theorem isShort_lowestSteps (bits : Nat) (signed : Bool) :
    Binary64.IsShort (lowestSteps bits signed).natAbs := by
  rcases lowestSteps_eq bits signed with h | h
  · rw [h]
    exact Binary64.isShort_of_lt (by decide)
  · rw [h, Int.natAbs_neg]
    exact isShort_limitSteps bits signed

theorem lowestSteps_le (signed : Bool) (hbits : bits ≤ 64) :
    (lowestSteps bits signed).natAbs ≤ 2 ^ 64 := by
  rcases lowestSteps_eq bits signed with h | h
  · rw [h]
    decide
  · rw [h, Int.natAbs_neg]
    exact limitSteps_le signed hbits

theorem floatRange?_eq (hshape : type.shape = .fixedPoint bits radix signed) :
    type.floatRange? = some (.ofScaled (lowestSteps bits signed) radix,
      .ofScaled (limitSteps bits signed - 1) radix) := by
  cases signed with
  | false =>
      simp only [floatRange?, hshape, lowestSteps, limitSteps, Bool.false_eq_true, if_false,
        ← Binary64.ofScaled_zero]
  | true => simp only [floatRange?, hshape, lowestSteps, limitSteps, if_true]

theorem resolution_eq (hshape : type.shape = .fixedPoint bits radix signed) (hradix : radix ≤ 64) :
    type.resolution.exact = 1 / 2 ^ radix := by
  have hshort : Binary64.IsShort (1 : Int).natAbs := Binary64.isShort_of_lt (by decide)
  have hexact := Binary64.exact_ofScaled hshort (by decide) hradix
  rw [resolution, hshape, hexact, Int.cast_one]

theorem bits_of_fixedPoint (hshape : type.shape = .fixedPoint bits radix signed) :
    0 < bits ∧ bits ≤ 64 ∧ radix ≤ bits := by
  have hpos := type.bits_pos
  have hle := type.bits_le
  have hlegal := type.legal
  rw [LeafType.bits, hshape, LeafShape.bits] at hpos hle
  refine ⟨hpos, hle, ?_⟩
  by_contra hradix
  have hwidth : ¬ (bits = 0 ∨ 64 < bits) := by omega
  simp [LeafShape.fault?, hshape, LeafShape.bits, LeafShape.maxBits, hwidth,
    Nat.lt_of_not_le hradix] at hlegal

/-! ## Accepted numbers -/

/-- A double that the range of a fixed-point type admits. -/
structure Admitted (bits radix : Nat) (signed : Bool) (number : Binary64) : Prop where
  ordinary : number.isNaN = false
  low : (Binary64.ofScaled (lowestSteps bits signed) radix).rank ≤ number.rank
  high : number.rank ≤ (Binary64.ofScaled (limitSteps bits signed - 1) radix).rank

theorem admitted_of_coerce (hshape : type.shape = .fixedPoint bits radix signed)
    {value accepted : Scalar} (h : type.coerce value = .ok accepted) :
    ∃ number, accepted = .float number ∧ Admitted bits radix signed number := by
  have hform := coerce_eq_ok h
  rw [hshape] at hform
  obtain ⟨number, low, high, hrange, hlow, hhigh, rfl⟩ := hform
  rw [floatRange?_eq hshape] at hrange
  cases hrange
  simp only [Binary64.le, Bool.and_eq_true, Bool.not_eq_true', decide_eq_true_eq] at hlow hhigh
  exact ⟨number, rfl, hlow.1.2, hlow.2, hhigh.2⟩

namespace Admitted

variable {number : Binary64}

theorem exact_low (h : Admitted bits radix signed number) (hbits : bits ≤ 64)
    (hradix : radix ≤ 64) : (lowestSteps bits signed : ℚ) ≤ number.exact * 2 ^ radix := by
  have hle := Binary64.exact_mono h.low
  rw [Binary64.exact_ofScaled (isShort_lowestSteps bits signed) (lowestSteps_le signed hbits)
    hradix] at hle
  exact (div_le_iff₀ (by positivity)).mp hle

/-- The upper limit of the range may be rounded, but not beyond the first number above. -/
theorem rank_high (h : Admitted bits radix signed number) :
    number.rank ≤ (Binary64.ofScaled (limitSteps bits signed) radix).rank :=
  h.high.trans (Binary64.rank_ofScaled_mono radix (by omega))

theorem exact_high (h : Admitted bits radix signed number) (hbits : bits ≤ 64)
    (hradix : radix ≤ 64) : number.exact * 2 ^ radix ≤ limitSteps bits signed := by
  have hle := Binary64.exact_mono h.rank_high
  rw [Binary64.exact_ofScaled (isShort_limitSteps bits signed) (limitSteps_le signed hbits)
    hradix] at hle
  exact (le_div_iff₀ (by positivity)).mp hle

theorem exact_high_of_narrow (h : Admitted bits radix signed number) (hradix : radix ≤ 64)
    (hnarrow : limitSteps bits signed ≤ 2 ^ 53) :
    number.exact * 2 ^ radix ≤ limitSteps bits signed - 1 := by
  have hpos := limitSteps_pos bits signed
  have hsmall : (limitSteps bits signed - 1).natAbs < 2 ^ 53 := by omega
  have hle := Binary64.exact_mono h.high
  rw [Binary64.exact_ofScaled (Binary64.isShort_of_lt hsmall) (by omega) hradix] at hle
  push_cast at hle
  exact (le_div_iff₀ (by positivity)).mp hle

theorem isFinite (h : Admitted bits radix signed number) (hbits : bits ≤ 64)
    (hradix : radix ≤ 64) : number.isFinite = true := by
  have hlow := Binary64.toUnits_ofScaled (isShort_lowestSteps bits signed)
    (lowestSteps_le signed hbits) hradix
  have hhigh := Binary64.toUnits_ofScaled (isShort_limitSteps bits signed)
    (limitSteps_le signed hbits) hradix
  exact Binary64.isFinite_of_rank_le hlow.1 hhigh.1 h.low h.rank_high

/-- The steps of an admitted number are those of the type, or those of the first number above. -/
theorem steps_mem (h : Admitted bits radix signed number) (hbits : bits ≤ 64)
    (hradix : radix ≤ 64) :
    lowestSteps bits signed ≤ number.roundScaled radix ∧
      number.roundScaled radix ≤ limitSteps bits signed := by
  obtain ⟨hbelow, habove⟩ := abs_le.mp (Binary64.roundScaled_near radix h.ordinary)
  have hlow := h.exact_low hbits hradix
  have hhigh := h.exact_high hbits hradix
  constructor
  · have : (lowestSteps bits signed : ℚ) < number.roundScaled radix + 1 := by linarith
    have : lowestSteps bits signed < number.roundScaled radix + 1 := by exact_mod_cast this
    omega
  · have : (number.roundScaled radix : ℚ) < limitSteps bits signed + 1 := by linarith
    have : number.roundScaled radix < limitSteps bits signed + 1 := by exact_mod_cast this
    omega

/-- Only the first number above the type has its steps, and no narrow type admits it. -/
theorem exact_of_steps (h : Admitted bits radix signed number) (hradix : radix ≤ 64)
    (hsteps : number.roundScaled radix = limitSteps bits signed) :
    number.exact * 2 ^ radix = limitSteps bits signed ∧ 2 ^ 53 < limitSteps bits signed := by
  have hwide : 2 ^ 53 < limitSteps bits signed := by
    by_contra hnarrow
    have hhigh := h.exact_high_of_narrow hradix (Int.not_lt.mp hnarrow)
    obtain ⟨_, habove⟩ := abs_le.mp (Binary64.roundScaled_near radix h.ordinary)
    rw [hsteps] at habove
    linarith
  have hlarge : 2 ^ 53 ≤ (number.roundScaled radix).natAbs := by omega
  have hexact := Binary64.roundScaled_eq_of_large h.ordinary hlarge
  rw [hsteps] at hexact
  exact ⟨hexact.symm, hwide⟩

theorem overshoots_iff (h : Admitted bits radix signed number) (hradix : radix ≤ 64) :
    Overshoots bits radix signed number ↔
      bits < 64 ∧ number.roundScaled radix = limitSteps bits signed := by
  have hscale : (2 : ℚ) ^ radix ≠ 0 := by positivity
  rw [Overshoots, eq_div_iff hscale]
  constructor
  · rintro ⟨hroom, hexact⟩
    obtain ⟨hbelow, habove⟩ := abs_le.mp (Binary64.roundScaled_near radix h.ordinary)
    rw [hexact] at hbelow habove
    have hlow : (limitSteps bits signed : ℚ) < number.roundScaled radix + 1 := by linarith
    have hhigh : (number.roundScaled radix : ℚ) < limitSteps bits signed + 1 := by linarith
    have : limitSteps bits signed < number.roundScaled radix + 1 := by exact_mod_cast hlow
    have : number.roundScaled radix < limitSteps bits signed + 1 := by exact_mod_cast hhigh
    exact ⟨hroom, by omega⟩
  · rintro ⟨hroom, hsteps⟩
    exact ⟨hroom, (h.exact_of_steps hradix hsteps).1⟩

/-- The steps of an admitted number scale back to within half a step of it. -/
theorem exact_near (h : Admitted bits radix signed number) (hbits : bits ≤ 64)
    (hradix : radix ≤ 64) :
    |(Binary64.ofScaled (number.roundScaled radix) radix).exact - number.exact| ≤
      1 / 2 ^ radix / 2 := by
  obtain ⟨hlow, hhigh⟩ := h.steps_mem hbits hradix
  have hlowest := lowestSteps_le signed hbits
  have hlimit := limitSteps_le signed hbits
  have hshort := Binary64.isShort_roundScaled radix h.ordinary
  have hscale : (0 : ℚ) < 2 ^ radix := by positivity
  have hdifference : (number.roundScaled radix : ℚ) / 2 ^ radix - number.exact =
      (number.roundScaled radix - number.exact * 2 ^ radix) / 2 ^ radix := by field_simp
  rw [Binary64.exact_ofScaled hshort (by omega) hradix, hdifference, abs_div, abs_of_pos hscale,
    div_div, div_le_div_iff₀ hscale (by positivity)]
  have hnear := Binary64.roundScaled_near radix h.ordinary
  nlinarith

/-- Where a word of 64 bits holds the first number above back, the greatest number of the type
rounds to it. -/
theorem exact_of_limit (h : Admitted bits radix signed number) (hbits : bits ≤ 64)
    (hradix : radix ≤ 64) (hsteps : number.roundScaled radix = limitSteps bits signed) :
    (Binary64.ofScaled (limitSteps bits signed - 1) radix).exact = number.exact := by
  have hscale : (2 : ℚ) ^ radix ≠ 0 := by positivity
  have hlimit : number.exact = (Binary64.ofScaled (limitSteps bits signed) radix).exact := by
    rw [Binary64.exact_ofScaled (isShort_limitSteps bits signed) (limitSteps_le signed hbits)
      hradix, eq_div_iff hscale]
    exact (h.exact_of_steps hradix hsteps).1
  apply le_antisymm
  · rw [hlimit]
    exact Binary64.exact_mono (Binary64.rank_ofScaled_mono radix (by omega))
  · exact Binary64.exact_mono h.high

end Admitted

/-! ## What comes back -/

theorem decode_eq (hshape : type.shape = .fixedPoint bits radix signed) {steps : Int}
    (hlow : lowestSteps bits signed ≤ steps) (hhigh : steps < limitSteps bits signed) :
    type.decode (steps % 2 ^ bits).toNat = .ok (.float (.ofScaled steps radix)) := by
  obtain ⟨hpos, hle, _⟩ := bits_of_fixedPoint hshape
  have hmodulus : (0 : Int) < 2 ^ bits := Int.pow_pos (by decide)
  have hraw : (steps % 2 ^ bits).toNat % 2 ^ bits = (steps % 2 ^ bits).toNat := by
    apply Nat.mod_eq_of_lt
    rw [Int.toNat_lt (Int.emod_nonneg _ hmodulus.ne')]
    push_cast
    exact Int.emod_lt_of_pos _ hmodulus
  have hbits : type.bits = bits := by rw [LeafType.bits, hshape]; rfl
  simp only [decode, hshape, hbits, hraw]
  cases signed with
  | false =>
      simp only [lowestSteps, limitSteps, Bool.false_eq_true, if_false] at hlow hhigh ⊢
      rw [Int.emod_eq_of_lt hlow hhigh, Int.toNat_of_nonneg hlow]
  | true =>
      simp only [lowestSteps, limitSteps, if_true] at hlow hhigh ⊢
      rw [signExtend_emod hpos hle hlow (by omega)]

theorem limit_emod (hpos : 0 < bits) :
    limitSteps bits signed % 2 ^ bits = lowestSteps bits signed % 2 ^ bits := by
  have hsum : limitSteps bits signed = lowestSteps bits signed + 2 ^ bits := by
    have := limit_sub_lowest signed hpos
    omega
  rw [hsum, Int.add_emod_right]

/-- The lowest number is more than half a step away from the first number above. -/
theorem far_of_limit {read number : ℚ} (hpos : 0 < bits)
    (hread : read = lowestSteps bits signed / 2 ^ radix)
    (hnumber : number * 2 ^ radix = limitSteps bits signed) :
    ¬ |read - number| ≤ 1 / 2 ^ radix / 2 := by
  have hscale : (0 : ℚ) < 2 ^ radix := by positivity
  have hwidth : (limitSteps bits signed : ℚ) - lowestSteps bits signed = 2 ^ bits := by
    exact_mod_cast limit_sub_lowest signed hpos
  have hdifference : read - number = -(2 ^ bits / 2 ^ radix) := by
    rw [hread, ← hwidth, ← hnumber]
    field_simp
    ring
  have hstep : (1 : ℚ) ≤ 2 ^ bits := one_le_pow₀ (by norm_num)
  rw [hdifference, abs_neg, abs_of_pos (by positivity), div_div, not_le,
    div_lt_div_iff₀ (by positivity) hscale]
  nlinarith

theorem lowest_of_limit {read number : ℚ} (hread : read = lowestSteps bits signed / 2 ^ radix)
    (hnumber : number * 2 ^ radix = limitSteps bits signed) :
    read = if signed then -number else 0 := by
  have hscale : (2 : ℚ) ^ radix ≠ 0 := by positivity
  cases signed with
  | false => simp [hread, lowestSteps]
  | true =>
      have hopposite : (lowestSteps bits true : ℚ) = -limitSteps bits true := by
        simp [lowestSteps, limitSteps]
      rw [hread, hopposite, ← hnumber, if_pos rfl, neg_div, mul_div_assoc, div_self hscale,
        mul_one]

theorem clampWord_eq {steps : Int} (hpos : 0 < bits) (hbits : bits ≤ 64)
    (hlow : lowestSteps bits signed ≤ steps) (hhigh : steps ≤ limitSteps bits signed)
    (hroom : bits < 64 ∨ steps < limitSteps bits signed) : clampWord signed steps = steps := by
  have hpower {m n : Nat} (h : m ≤ n) : (2 : Int) ^ m ≤ 2 ^ n := by
    exact_mod_cast Nat.pow_le_pow_right (by decide) h
  cases signed with
  | false =>
      simp only [lowestSteps, limitSteps, clampWord, Bool.false_eq_true, if_false] at *
      rcases hroom with hroom | hroom
      · have := hpower (show bits ≤ 63 by omega)
        omega
      · have := hpower hbits
        omega
  | true =>
      simp only [lowestSteps, limitSteps, clampWord, if_true] at *
      rcases hroom with hroom | hroom
      · have := hpower (show bits - 1 ≤ 62 by omega)
        omega
      · have := hpower (show bits - 1 ≤ 63 by omega)
        omega

theorem clampWord_limit : clampWord signed (limitSteps 64 signed) = limitSteps 64 signed - 1 := by
  cases signed with
  | false => decide
  | true => decide

/-- A value that a fixed-point type accepts reads back within half a step, unless it overshoots the
type; then it reads back as the lowest number of the type, and the type is one whose patterns have
more bits than a double has.  Checking it for the wire and reading it back never fail. -/
theorem reads_back_within_half_step_iff (hshape : type.shape = .fixedPoint bits radix signed)
    {value accepted : Scalar} (h : type.coerce value = .ok accepted) :
    ∃ number read pattern, accepted = .float number ∧ number.isFinite = true ∧
      type.encode value = .ok pattern ∧ type.decode pattern = .ok (.float read) ∧
      (|read.exact - number.exact| ≤ type.resolution.exact / 2 ↔
        ¬ Overshoots bits radix signed number) ∧
      (Overshoots bits radix signed number →
        2 ^ 53 < limitSteps bits signed ∧
          read.exact = if signed then -number.exact else 0) := by
  obtain ⟨hpos, hbits, hradixbits⟩ := bits_of_fixedPoint hshape
  have hradix : radix ≤ 64 := hradixbits.trans hbits
  obtain ⟨number, rfl, hadmitted⟩ := admitted_of_coerce hshape h
  obtain ⟨hlow, hhigh⟩ := hadmitted.steps_mem hbits hradix
  have hfinite := hadmitted.isFinite hbits hradix
  have hencode : type.encode value = .ok (type.pattern (.float number)) := by
    rw [encode, h]
    rfl
  have hwire : type.wireNumber (.float number) = clampWord signed (number.roundScaled radix) := by
    simp only [wireNumber, hshape]
  have hpattern := pattern_eq hshape hwire
  have hover := hadmitted.overshoots_iff hradix
  rcases Int.lt_or_eq_of_le hhigh with hbelow | hlimit
  · have hdecode := decode_eq hshape hlow hbelow
    rw [clampWord_eq hpos hbits hlow hhigh (.inr hbelow), LeafShape.bits] at hpattern
    refine ⟨number, _, _, rfl, hfinite, hencode, hpattern ▸ hdecode, ?_⟩
    rw [hover, resolution_eq hshape hradix]
    have hinside : ¬ (bits < 64 ∧ number.roundScaled radix = limitSteps bits signed) :=
      fun hover => hbelow.ne hover.2
    exact ⟨iff_of_true (hadmitted.exact_near hbits hradix) hinside,
      fun hover => absurd hover hinside⟩
  rcases Nat.lt_or_eq_of_le hbits with hroom | rfl
  · -- The pattern of the first number above is cut down to that of the lowest one.
    have hmodulus : (0 : Int) < 2 ^ bits := Int.pow_pos (by decide)
    have hlimits := limit_sub_lowest signed hpos
    have hdecode := decode_eq hshape (Int.le_refl _) (by omega)
    rw [clampWord_eq hpos hbits hlow hhigh (.inl hroom), hlimit, LeafShape.bits,
      limit_emod hpos] at hpattern
    refine ⟨number, _, _, rfl, hfinite, hencode, hpattern ▸ hdecode, ?_⟩
    rw [hover, resolution_eq hshape hradix]
    obtain ⟨hexact, hwide⟩ := hadmitted.exact_of_steps hradix hlimit
    have hread := Binary64.exact_ofScaled (isShort_lowestSteps bits signed)
      (lowestSteps_le signed hbits) hradix
    refine ⟨iff_of_false ?_ (not_not_intro ⟨hroom, hlimit⟩), fun _ => ⟨hwide, ?_⟩⟩
    · exact far_of_limit hpos hread hexact
    · exact lowest_of_limit hread hexact
  · -- A word cannot hold the first number above, and the greatest one rounds to it.
    have hlimits := limit_sub_lowest signed (show 0 < 64 by decide)
    have hbelow : limitSteps 64 signed - 1 < limitSteps 64 signed := by omega
    have hdecode := decode_eq hshape (by omega) hbelow
    rw [hlimit, clampWord_limit, LeafShape.bits] at hpattern
    refine ⟨number, _, _, rfl, hfinite, hencode, hpattern ▸ hdecode, ?_⟩
    rw [hover, resolution_eq hshape hradix, hadmitted.exact_of_limit hbits hradix hlimit,
      sub_self, abs_zero]
    have hfull : ¬ (64 < 64 ∧ number.roundScaled radix = limitSteps 64 signed) := by omega
    exact ⟨iff_of_true (by positivity) hfull, fun hover => absurd hover hfull⟩

namespace Sample

/-- A number of 54 bits, one more than a double has. -/
def wide : LeafType := ⟨.fixedPoint 54 0 false, by decide⟩

/-- The first number that `wide` has no pattern for. -/
def overshoot : Binary64 := .ofScaled (2 ^ 54) 0

/-- Three is far below the limit of `wide`, and comes back. -/
theorem wide_reads_three :
    wide.shape = .fixedPoint 54 0 false ∧
      wide.coerce (.unsigned 3) = .ok (.float (.ofInt 3)) ∧
      ∃ number read pattern, Scalar.float (.ofInt 3) = .float number ∧ number.isFinite = true ∧
        wide.encode (.unsigned 3) = .ok pattern ∧ wide.decode pattern = .ok (.float read) ∧
        (|read.exact - number.exact| ≤ wide.resolution.exact / 2 ↔
          ¬ Overshoots 54 0 false number) ∧
        (Overshoots 54 0 false number →
          2 ^ 53 < limitSteps 54 false ∧ read.exact = if false then -number.exact else 0) :=
  ⟨rfl, by decide +kernel, reads_back_within_half_step_iff rfl (by decide +kernel)⟩

/-- The overshooting number is accepted, and reads back as zero. -/
theorem wide_wraps :
    wide.coerce (.float overshoot) = .ok (.float overshoot) ∧
      wide.encode (.float overshoot) = .ok 0 ∧ wide.decode 0 = .ok (.float .zero) ∧
      ¬ |Binary64.zero.exact - overshoot.exact| ≤ wide.resolution.exact / 2 := by
  refine ⟨by decide +kernel, by decide +kernel, by decide +kernel, ?_⟩
  have hshape : wide.shape = .fixedPoint 54 0 false := rfl
  have hshort : Binary64.IsShort (2 ^ 54 : Int).natAbs := Binary64.isShort_two_pow 54
  rw [Binary64.exact_zero, overshoot, Binary64.exact_ofScaled hshort (by decide) (by decide),
    resolution_eq hshape (by decide)]
  norm_num

end Sample

end LeafType

end RadioPacket
