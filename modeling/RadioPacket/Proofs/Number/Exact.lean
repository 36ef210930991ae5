import Mathlib.Algebra.Order.Field.Rat
import Mathlib.Order.Monotone.Basic
import Mathlib.Tactic.FieldSimp
import Mathlib.Tactic.Linarith
import Mathlib.Tactic.Positivity
import Mathlib.Tactic.Ring
import RadioPacket.Proofs.Number.Rounding

/-!
# Exact values of doubles

A pattern is a place exponent in front of a significand of 53 bits, so patterns order as the exact
values that they stand for.  Numbers that fit the significand are converted without error.  Scaling
and rounding to a whole number always gives a number that fits: either its size is below `2 ^ 53`,
or the scaled number was whole already and keeps the significand that it had.
-/

namespace RadioPacket.Binary64

/-- The exact value of a finite number. -/
def exact (x : Binary64) : ℚ := x.toUnits / unitsPerOne

theorem fractionSpan_pos : 0 < fractionSpan := by decide

/-- One has a power of two of units.  The exponent is kept as a variable, for the power itself is
too large to be computed in passing. -/
theorem unitsPerOne_eq : ∃ places, places = 1074 ∧ unitsPerOne = 2 ^ places :=
  ⟨1074, rfl, by simp only [unitsPerOne]⟩

/-! ## Patterns and their units -/

theorem units_compose {exponent number : Nat} (hlt : number < 2 * fractionSpan)
    (hnormal : 0 < exponent → fractionSpan ≤ number) :
    units (exponent * fractionSpan + number) = number * 2 ^ exponent := by
  by_cases hsmall : number < fractionSpan
  · have hzero : exponent = 0 := by
      by_contra hne
      have := hnormal (Nat.pos_of_ne_zero hne)
      omega
    subst hzero
    simp [units, significand, placeExponent, hsmall, Nat.div_eq_of_lt hsmall,
      Nat.mod_eq_of_lt hsmall]
  · have hpattern : exponent * fractionSpan + number =
        (number - fractionSpan) + (exponent + 1) * fractionSpan := by
      rw [Nat.add_mul]
      omega
    have hrest : number - fractionSpan < fractionSpan := by omega
    have hbig : ¬ number - fractionSpan + (exponent + 1) * fractionSpan < fractionSpan := by
      rw [Nat.add_mul]
      omega
    rw [hpattern, units, significand, placeExponent, Nat.add_mul_mod_self_right,
      Nat.mod_eq_of_lt hrest, Nat.add_mul_div_right _ _ fractionSpan_pos,
      Nat.div_eq_of_lt hrest, if_neg hbig, Nat.zero_add, Nat.add_sub_cancel,
      Nat.sub_add_cancel (Nat.le_of_not_lt hsmall)]

theorem significand_lt (magnitude : Nat) : significand magnitude < 2 * fractionSpan := by
  have hmod := Nat.mod_lt magnitude fractionSpan_pos
  rw [significand]
  split
  · omega
  · omega

theorem fractionSpan_le_significand {magnitude : Nat} (h : 0 < placeExponent magnitude) :
    fractionSpan ≤ significand magnitude := by
  have hbig : ¬ magnitude < fractionSpan := by
    intro hsmall
    rw [placeExponent, Nat.div_eq_of_lt hsmall] at h
    omega
  rw [significand, if_neg hbig]
  omega

theorem compose_eq (magnitude : Nat) :
    placeExponent magnitude * fractionSpan + significand magnitude = magnitude := by
  have hdivision := Nat.div_add_mod' magnitude fractionSpan
  by_cases hsmall : magnitude < fractionSpan
  · rw [placeExponent, significand, if_pos hsmall, Nat.div_eq_of_lt hsmall,
      Nat.mod_eq_of_lt hsmall]
    omega
  · have hone : 1 ≤ magnitude / fractionSpan :=
      (Nat.one_le_div_iff fractionSpan_pos).mpr (Nat.le_of_not_lt hsmall)
    have hstep : (magnitude / fractionSpan - 1) * fractionSpan + fractionSpan =
        magnitude / fractionSpan * fractionSpan := by
      rw [← Nat.succ_mul, Nat.succ_eq_add_one, Nat.sub_add_cancel hone]
    rw [placeExponent, significand, if_neg hsmall]
    omega

theorem units_lt_units_succ (magnitude : Nat) : units magnitude < units (magnitude + 1) := by
  have hcompose := compose_eq magnitude
  have hlt := significand_lt magnitude
  have hnormal : 0 < placeExponent magnitude → fractionSpan ≤ significand magnitude :=
    fractionSpan_le_significand
  have hunits : units magnitude = significand magnitude * 2 ^ placeExponent magnitude := rfl
  have hpower := Nat.two_pow_pos (placeExponent magnitude)
  generalize significand magnitude = number at *
  generalize placeExponent magnitude = exponent at *
  by_cases hroom : number + 1 < 2 * fractionSpan
  · have hnext : units (magnitude + 1) = (number + 1) * 2 ^ exponent := by
      rw [← hcompose, Nat.add_assoc]
      exact units_compose hroom fun h => Nat.le_succ_of_le (hnormal h)
    rw [hunits, hnext, Nat.succ_mul]
    omega
  · -- The significand is full, so the next pattern has the next exponent.
    have hnext : units (magnitude + 1) = fractionSpan * 2 ^ (exponent + 1) := by
      have hpattern : magnitude + 1 = (exponent + 1) * fractionSpan + fractionSpan := by
        rw [← hcompose, Nat.add_mul]
        omega
      rw [hpattern]
      exact units_compose (by have := fractionSpan_pos; omega) fun _ => Nat.le_refl _
    have hfull : number + 1 = 2 * fractionSpan := by omega
    calc
      units magnitude = number * 2 ^ exponent := hunits
      _ < (number + 1) * 2 ^ exponent := by rw [Nat.succ_mul]; omega
      _ = units (magnitude + 1) := by rw [hnext, hfull, Nat.pow_succ]; ring

theorem units_strictMono : StrictMono units := strictMono_nat_of_lt_succ units_lt_units_succ

theorem units_zero : units 0 = 0 := by decide

theorem exact_zero : zero.exact = 0 := by
  have hunits : zero.toUnits = 0 := by decide
  rw [exact, hunits, Int.cast_zero, zero_div]

theorem toUnits_eq (x : Binary64) :
    x.toUnits = if x.rank < 0 then -(units x.rank.natAbs : Int) else units x.rank.natAbs := by
  obtain ⟨negative, magnitude, _⟩ := x
  cases negative with
  | false =>
      have hsign : ¬ (magnitude : Int) < 0 := by omega
      simp [toUnits, rank, hsign]
  | true =>
      by_cases hzero : magnitude = 0
      · subst hzero
        simp [toUnits, rank, units_zero]
      · simp [toUnits, rank, hzero]

theorem toUnits_mono {x y : Binary64} (h : x.rank ≤ y.rank) : x.toUnits ≤ y.toUnits := by
  have hmono {m n : Nat} (hmn : m ≤ n) : (units m : Int) ≤ units n := by
    exact_mod_cast units_strictMono.monotone hmn
  rw [toUnits_eq, toUnits_eq]
  split
  · split
    · have := hmono (show y.rank.natAbs ≤ x.rank.natAbs by omega)
      omega
    · omega
  · rw [if_neg (by omega)]
    exact hmono (by omega)

theorem unitsPerOne_pos : (0 : ℚ) < unitsPerOne := by
  rw [unitsPerOne]
  positivity

theorem exact_mono {x y : Binary64} (h : x.rank ≤ y.rank) : x.exact ≤ y.exact := by
  have hunits : (x.toUnits : ℚ) ≤ y.toUnits := by exact_mod_cast toUnits_mono h
  exact div_le_div_of_nonneg_right hunits unitsPerOne_pos.le

theorem natAbs_rank (x : Binary64) : x.rank.natAbs = x.magnitude := by
  rw [rank]
  split
  · exact Int.natAbs_neg _
  · exact Int.natAbs_natCast _

theorem isFinite_of_rank_le {x y z : Binary64} (hx : x.isFinite = true) (hz : z.isFinite = true)
    (hlow : x.rank ≤ y.rank) (hhigh : y.rank ≤ z.rank) : y.isFinite = true := by
  simp only [isFinite, decide_eq_true_eq, ← natAbs_rank] at hx hz ⊢
  omega

/-! ## Conversions without error -/

/-- A quotient whose significant bits all fit the significand is converted without error. -/
theorem units_nearestMagnitude {n d : Nat} (hfits : d * 2 ^ exponentOf n d ∣ n)
    (hd : 0 < d) (hexponent : exponentOf n d ≤ 2044) :
    nearestMagnitude n d < infinityMagnitude ∧ units (nearestMagnitude n d) * d = n := by
  obtain ⟨number, hnumber⟩ := hfits
  have hstep : 0 < d * 2 ^ exponentOf n d := Nat.mul_pos hd (Nat.two_pow_pos _)
  have hquotient : n / (d * 2 ^ exponentOf n d) = number := by
    exact Nat.div_eq_of_eq_mul_right hstep hnumber
  have hremainder : n % (d * 2 ^ exponentOf n d) = 0 :=
    Nat.mod_eq_zero_of_dvd ⟨number, hnumber⟩
  have hrounded : divNearestEven n (d * 2 ^ exponentOf n d) = number := by
    simp only [divNearestEven, hquotient, hremainder]
    rw [if_pos (by omega)]
  have hlt : number < 2 * fractionSpan := hquotient ▸ div_lt_twice_fractionSpan n d
  have hnormal : 0 < exponentOf n d → fractionSpan ≤ number := fun h =>
    hquotient ▸ fractionSpan_le_div h
  have hfinite : exponentOf n d * fractionSpan + number < infinityMagnitude := by
    have hle : exponentOf n d * fractionSpan ≤ 2044 * fractionSpan :=
      Nat.mul_le_mul_right _ hexponent
    have hinfinity : infinityMagnitude = 2047 * fractionSpan := rfl
    omega
  rw [nearestMagnitude_eq, hrounded, Nat.min_eq_left hfinite.le]
  refine ⟨hfinite, ?_⟩
  calc
    units (exponentOf n d * fractionSpan + number) * d = number * 2 ^ exponentOf n d * d := by
      rw [units_compose hlt hnormal]
    _ = d * 2 ^ exponentOf n d * number := by ring
    _ = n := hnumber.symm

/-- The number is a significand of at most 53 bits followed by zeros. -/
def IsShort (number : Nat) : Prop := ∃ head zeros, number = head * 2 ^ zeros ∧ head < 2 ^ 53

theorem isShort_of_lt {number : Nat} (h : number < 2 ^ 53) : IsShort number :=
  ⟨number, 0, by simp, h⟩

theorem isShort_two_pow (width : Nat) : IsShort (2 ^ width) := ⟨1, width, by simp, by decide⟩

theorem exponentOf_short {number radix : Nat} (hshort : IsShort number) (hradix : radix ≤ 64) :
    2 ^ radix * 2 ^ exponentOf (number * unitsPerOne) (2 ^ radix) ∣ number * unitsPerOne := by
  obtain ⟨head, zeros, rfl, hhead⟩ := hshort
  by_cases hzero : head = 0
  · simp [hzero]
  obtain ⟨places, hplaces, hone⟩ := unitsPerOne_eq
  have hunits : head * 2 ^ zeros * unitsPerOne = head * 2 ^ (zeros + places) := by
    rw [hone, Nat.mul_assoc, ← Nat.pow_add]
  have hquotient : head * 2 ^ zeros * unitsPerOne / 2 ^ radix =
      head * 2 ^ (zeros + places - radix) := by
    have hsplit : 2 ^ (zeros + places) = 2 ^ (zeros + places - radix) * 2 ^ radix := by
      rw [← Nat.pow_add, Nat.sub_add_cancel (by omega)]
    rw [hunits, hsplit, ← Nat.mul_assoc, Nat.mul_div_cancel _ (Nat.two_pow_pos radix)]
  have hlog : Nat.log2 (head * 2 ^ (zeros + places - radix)) ≤ 52 + (zeros + places - radix) := by
    have hne : head * 2 ^ (zeros + places - radix) ≠ 0 :=
      Nat.mul_ne_zero hzero (Nat.two_pow_pos _).ne'
    have hlt : head * 2 ^ (zeros + places - radix) < 2 ^ (53 + (zeros + places - radix)) := by
      rw [Nat.pow_add]
      exact Nat.mul_lt_mul_of_pos_right hhead (Nat.two_pow_pos _)
    have := (Nat.log2_lt hne).mpr hlt
    omega
  have hexponent : radix + exponentOf (head * 2 ^ zeros * unitsPerOne) (2 ^ radix) ≤
      zeros + places := by
    rw [exponentOf, hquotient]
    omega
  rw [hunits] at hexponent ⊢
  rw [← Nat.pow_add]
  exact Dvd.dvd.mul_left (Nat.pow_dvd_pow 2 hexponent) head

/-- A short number of at most 64 bits is scaled down without error. -/
theorem toUnits_ofScaled {value : Int} {radix : Nat} (hshort : IsShort value.natAbs)
    (hvalue : value.natAbs ≤ 2 ^ 64) (hradix : radix ≤ 64) :
    (ofScaled value radix).isFinite = true ∧
      (ofScaled value radix).toUnits * 2 ^ radix = value * unitsPerOne := by
  have hexponent : exponentOf (value.natAbs * unitsPerOne) (2 ^ radix) ≤ 2044 := by
    obtain ⟨places, hplaces, hone⟩ := unitsPerOne_eq
    have hle : value.natAbs * unitsPerOne / 2 ^ radix ≤ 2 ^ (64 + places) := by
      calc
        value.natAbs * unitsPerOne / 2 ^ radix ≤ value.natAbs * unitsPerOne := Nat.div_le_self _ _
        _ ≤ 2 ^ 64 * 2 ^ places := by
          rw [hone]
          exact Nat.mul_le_mul_right _ hvalue
        _ = 2 ^ (64 + places) := (Nat.pow_add 2 64 places).symm
    have hlog : Nat.log2 (value.natAbs * unitsPerOne / 2 ^ radix) ≤
        Nat.log2 (2 ^ (64 + places)) := by
      rw [Nat.log2_eq_log_two, Nat.log2_eq_log_two]
      exact Nat.log_mono_right hle
    rw [Nat.log2_two_pow] at hlog
    rw [exponentOf]
    omega
  obtain ⟨hfinite, hunits⟩ := units_nearestMagnitude (exponentOf_short hshort hradix)
    (Nat.two_pow_pos radix) hexponent
  have hcast : (units (nearestMagnitude (value.natAbs * unitsPerOne) (2 ^ radix)) : Int) *
      2 ^ radix = value.natAbs * unitsPerOne := by exact_mod_cast hunits
  refine ⟨decide_eq_true hfinite, ?_⟩
  by_cases hsign : value < 0
  · have habs : (value.natAbs : Int) = -value := by omega
    rw [habs] at hcast
    simp only [toUnits, ofScaled, ofRatio, hsign, decide_true, if_true]
    rw [Int.neg_mul, hcast, Int.neg_mul, Int.neg_neg]
  · have habs : (value.natAbs : Int) = value := by omega
    rw [habs] at hcast
    simp only [toUnits, ofScaled, ofRatio, hsign, decide_false, Bool.false_eq_true, if_false]
    exact hcast

theorem exact_ofScaled {value : Int} {radix : Nat} (hshort : IsShort value.natAbs)
    (hvalue : value.natAbs ≤ 2 ^ 64) (hradix : radix ≤ 64) :
    (ofScaled value radix).exact = value / 2 ^ radix := by
  obtain ⟨_, hunits⟩ := toUnits_ofScaled hshort hvalue hradix
  have hcast : ((ofScaled value radix).toUnits : ℚ) * 2 ^ radix = value * unitsPerOne := by
    exact_mod_cast hunits
  rw [exact, div_eq_div_iff unitsPerOne_pos.ne' (by positivity), hcast]

/-! ## Rounding to whole numbers -/

/-- Rounding misses the scaled number by at most a half. -/
theorem roundScaled_near {x : Binary64} (radix : Nat) (hnumber : x.isNaN = false) :
    |(x.roundScaled radix : ℚ) - x.exact * 2 ^ radix| ≤ 1 / 2 := by
  have hone : 0 < unitsPerOne := by exact_mod_cast unitsPerOne_pos
  generalize hscaled : units x.magnitude * 2 ^ radix = scaled
  generalize hrounded : (2 * scaled + unitsPerOne) / (2 * unitsPerOne) = rounded
  have hsize : |(rounded : ℚ) - scaled / unitsPerOne| ≤ 1 / 2 := by
    have hdivision := Nat.div_add_mod (2 * scaled + unitsPerOne) (2 * unitsPerOne)
    have hmod := Nat.mod_lt (2 * scaled + unitsPerOne) (show 0 < 2 * unitsPerOne by omega)
    rw [hrounded] at hdivision
    have hlow : 2 * unitsPerOne * rounded ≤ 2 * scaled + unitsPerOne := by omega
    have hhigh : 2 * scaled + unitsPerOne ≤ 2 * unitsPerOne * rounded + 2 * unitsPerOne := by
      omega
    have hlow' : 2 * (unitsPerOne : ℚ) * rounded ≤ 2 * scaled + unitsPerOne := by
      exact_mod_cast hlow
    have hhigh' : 2 * (scaled : ℚ) + unitsPerOne ≤
        2 * unitsPerOne * rounded + 2 * unitsPerOne := by exact_mod_cast hhigh
    have hpos := unitsPerOne_pos
    rw [abs_le]
    constructor
    · rw [le_sub_iff_add_le, neg_add_eq_sub, sub_le_iff_le_add, div_le_iff₀ hpos]
      linarith
    · rw [sub_le_iff_le_add, ← sub_le_iff_le_add', le_div_iff₀ hpos]
      linarith
  have hexact : x.exact * 2 ^ radix =
      if x.negative then -((scaled : ℚ) / unitsPerOne) else scaled / unitsPerOne := by
    have hcast : (scaled : ℚ) = units x.magnitude * 2 ^ radix := by
      rw [← hscaled]
      push_cast
      rfl
    rw [exact, toUnits, hcast]
    split
    · push_cast
      ring
    · push_cast
      ring
  simp only [roundScaled, hnumber, hscaled, hrounded, hexact]
  cases x.negative with
  | false => simpa only [Bool.false_eq_true, if_false, Int.cast_natCast] using hsize
  | true =>
      simp only [if_true, Bool.false_eq_true, if_false]
      rw [Int.cast_neg, Int.cast_natCast, neg_sub_neg, abs_sub_comm]
      exact hsize

theorem natAbs_roundScaled {x : Binary64} (radix : Nat) (hnumber : x.isNaN = false) :
    (x.roundScaled radix).natAbs =
      (2 * (units x.magnitude * 2 ^ radix) + unitsPerOne) / (2 * unitsPerOne) := by
  have hordinary : ¬ x.isNaN = true := by simp [hnumber]
  rw [roundScaled, if_neg hordinary]
  split
  · exact (Int.natAbs_neg _).trans (Int.natAbs_natCast _)
  · exact Int.natAbs_natCast _

/-- The scaled number is whole already, or it is rounded to a number below `2 ^ 53`. -/
theorem roundScaled_cases {x : Binary64} (radix : Nat) (hnumber : x.isNaN = false) :
    (IsShort (x.roundScaled radix).natAbs ∧
        (x.roundScaled radix).natAbs * unitsPerOne = units x.magnitude * 2 ^ radix) ∨
      (x.roundScaled radix).natAbs < 2 ^ 53 := by
  rw [natAbs_roundScaled radix hnumber]
  have hhead := significand_lt x.magnitude
  have hunits : units x.magnitude * 2 ^ radix =
      significand x.magnitude * 2 ^ (placeExponent x.magnitude + radix) := by
    rw [units, Nat.mul_assoc, ← Nat.pow_add]
  have hspan : 2 * fractionSpan = 2 ^ 53 := rfl
  rw [hunits]
  generalize significand x.magnitude = head at *
  generalize placeExponent x.magnitude + radix = exponent
  obtain ⟨places, -, hone⟩ := unitsPerOne_eq
  have hpos : 0 < 2 ^ places := Nat.two_pow_pos places
  rw [hone]
  by_cases hplaces : places ≤ exponent
  · have hscaled : head * 2 ^ exponent = head * 2 ^ (exponent - places) * 2 ^ places := by
      rw [Nat.mul_assoc, ← Nat.pow_add, Nat.sub_add_cancel hplaces]
    have hrounded : (2 * (head * 2 ^ exponent) + 2 ^ places) / (2 * 2 ^ places) =
        head * 2 ^ (exponent - places) := by
      have hsum : 2 * (head * 2 ^ exponent) + 2 ^ places =
          2 ^ places + head * 2 ^ (exponent - places) * (2 * 2 ^ places) := by
        rw [hscaled]
        ring
      rw [hsum, Nat.add_mul_div_right _ _ (by omega), Nat.div_eq_of_lt (by omega), Nat.zero_add]
    rw [hrounded]
    exact .inl ⟨⟨head, exponent - places, rfl, by omega⟩, hscaled.symm⟩
  · right
    have hhalf : 2 * (head * 2 ^ exponent) ≤ 2 ^ 53 * 2 ^ places := by
      calc
        2 * (head * 2 ^ exponent) = head * 2 ^ (exponent + 1) := by rw [Nat.pow_succ]; ring
        _ ≤ 2 ^ 53 * 2 ^ (exponent + 1) := Nat.mul_le_mul_right _ (by omega)
        _ ≤ 2 ^ 53 * 2 ^ places :=
          Nat.mul_le_mul_left _ (Nat.pow_le_pow_right (by decide) (by omega))
    rw [Nat.div_lt_iff_lt_mul (by omega)]
    omega

theorem isShort_roundScaled {x : Binary64} (radix : Nat) (hnumber : x.isNaN = false) :
    IsShort (x.roundScaled radix).natAbs := by
  rcases roundScaled_cases radix hnumber with ⟨hshort, _⟩ | hsmall
  · exact hshort
  · exact isShort_of_lt hsmall

theorem roundScaled_eq_of_large {x : Binary64} {radix : Nat} (hnumber : x.isNaN = false)
    (hlarge : 2 ^ 53 ≤ (x.roundScaled radix).natAbs) :
    (x.roundScaled radix : ℚ) = x.exact * 2 ^ radix := by
  have hwhole : (x.roundScaled radix).natAbs * unitsPerOne = units x.magnitude * 2 ^ radix := by
    rcases roundScaled_cases radix hnumber with ⟨_, hwhole⟩ | hsmall
    · exact hwhole
    · omega
  have hcast : ((x.roundScaled radix).natAbs : ℚ) * unitsPerOne =
      units x.magnitude * 2 ^ radix := by exact_mod_cast hwhole
  have hsize : ((x.roundScaled radix).natAbs : ℚ) =
      units x.magnitude / unitsPerOne * 2 ^ radix := by
    rw [div_mul_eq_mul_div, eq_div_iff unitsPerOne_pos.ne', hcast]
  rw [natAbs_roundScaled radix hnumber] at hsize
  simp only [roundScaled, hnumber, exact, toUnits]
  cases x.negative with
  | false =>
      simp only [Bool.false_eq_true, if_false, Int.cast_natCast]
      exact hsize
  | true =>
      simp only [Bool.false_eq_true, if_true, if_false, Int.cast_neg, Int.cast_natCast]
      rw [hsize]
      ring

end RadioPacket.Binary64
