import Mathlib.Data.Nat.Log
import RadioPacket.Number.Binary64

/-!
# Rounding keeps order

Rounding to the nearest magnitude is monotone, although the place exponent changes with the number:
where the exponent grows, the larger number has reached a significand of 53 bits.  Hence the
numbers `value / 2 ^ radix` are rounded in the order of their values, and none of them is NaN.
-/

namespace RadioPacket.Binary64

theorem div_le_divNearestEven (n d : Nat) : n / d ≤ divNearestEven n d := by
  simp only [divNearestEven]
  split
  · exact Nat.le_refl _
  · split
    · exact Nat.le_succ _
    · exact Nat.le_add_right _ _

theorem divNearestEven_le (n d : Nat) : divNearestEven n d ≤ n / d + 1 := by
  simp only [divNearestEven]
  split
  · exact Nat.le_succ _
  · split
    · exact Nat.le_refl _
    · have := Nat.mod_lt (n / d) (show 0 < 2 by decide)
      omega

theorem divNearestEven_mono {m n : Nat} (d : Nat) (h : m ≤ n) :
    divNearestEven m d ≤ divNearestEven n d := by
  have hquotient : m / d ≤ n / d := Nat.div_le_div_right h
  rcases Nat.lt_or_eq_of_le hquotient with hlt | heq
  · calc
      divNearestEven m d ≤ m / d + 1 := divNearestEven_le m d
      _ ≤ n / d := hlt
      _ ≤ divNearestEven n d := div_le_divNearestEven n d
  · have hremainder : m % d ≤ n % d := by
      have hm := Nat.div_add_mod m d
      have hn := Nat.div_add_mod n d
      rw [heq] at hm
      omega
    simp only [divNearestEven, heq]
    by_cases hbelow : 2 * (n % d) < d
    · rw [if_pos hbelow, if_pos (by omega)]
    · by_cases habove : d < 2 * (n % d)
      · rw [if_neg hbelow, if_pos habove]
        split
        · omega
        · split
          · omega
          · omega
      · rw [if_neg hbelow, if_neg habove]
        split
        · omega
        · rw [if_neg (by omega)]

/-- The place exponent that suits a quotient. -/
def exponentOf (n d : Nat) : Nat := Nat.log2 (n / d) - 52

theorem nearestMagnitude_eq (n d : Nat) :
    nearestMagnitude n d =
      min (exponentOf n d * fractionSpan + divNearestEven n (d * 2 ^ exponentOf n d))
        infinityMagnitude := rfl

theorem exponentOf_mono {m n : Nat} (d : Nat) (h : m ≤ n) : exponentOf m d ≤ exponentOf n d := by
  have hlog : Nat.log2 (m / d) ≤ Nat.log2 (n / d) := by
    rw [Nat.log2_eq_log_two, Nat.log2_eq_log_two]
    exact Nat.log_mono_right (Nat.div_le_div_right h)
  exact Nat.sub_le_sub_right hlog 52

/-- Above exponent zero the significand has all its 53 bits. -/
theorem fractionSpan_le_div {n d : Nat} (h : 0 < exponentOf n d) :
    fractionSpan ≤ n / (d * 2 ^ exponentOf n d) := by
  have hlog : Nat.log2 (n / d) = 52 + exponentOf n d := by
    simp only [exponentOf] at h ⊢
    omega
  have hne : n / d ≠ 0 := by
    intro hzero
    rw [hzero, Nat.log2_zero] at hlog
    omega
  have hpow : 2 ^ (52 + exponentOf n d) ≤ n / d := (Nat.le_log2 hne).mp (by omega)
  rw [← Nat.div_div_eq_div_mul, Nat.le_div_iff_mul_le (Nat.two_pow_pos _), fractionSpan,
    ← Nat.pow_add]
  exact hpow

/-- The significand has at most 53 bits before rounding. -/
theorem div_lt_twice_fractionSpan (n d : Nat) :
    n / (d * 2 ^ exponentOf n d) < 2 * fractionSpan := by
  have hpow : n / d < 2 ^ (exponentOf n d + 53) := by
    have hlog : Nat.log2 (n / d) < exponentOf n d + 53 := by
      simp only [exponentOf]
      omega
    exact Nat.lt_of_lt_of_le Nat.lt_log2_self (Nat.pow_le_pow_right (by decide) hlog)
  rw [← Nat.div_div_eq_div_mul, Nat.div_lt_iff_lt_mul (Nat.two_pow_pos _)]
  calc
    n / d < 2 ^ (exponentOf n d + 53) := hpow
    _ = 2 * fractionSpan * 2 ^ exponentOf n d := by
      rw [fractionSpan, ← Nat.pow_succ', ← Nat.pow_add, Nat.add_comm]

theorem nearestMagnitude_mono {m n : Nat} (d : Nat) (h : m ≤ n) :
    nearestMagnitude m d ≤ nearestMagnitude n d := by
  rw [nearestMagnitude_eq, nearestMagnitude_eq]
  have hbelow : exponentOf m d * fractionSpan + divNearestEven m (d * 2 ^ exponentOf m d) ≤
      exponentOf n d * fractionSpan + divNearestEven n (d * 2 ^ exponentOf n d) := by
    rcases Nat.lt_or_eq_of_le (exponentOf_mono d h) with hlt | heq
    · -- The larger exponent pays for the smaller number rounding up to 53 bits and one.
      have hm : divNearestEven m (d * 2 ^ exponentOf m d) ≤ 2 * fractionSpan :=
        (divNearestEven_le _ _).trans (div_lt_twice_fractionSpan m d)
      have hn : fractionSpan ≤ divNearestEven n (d * 2 ^ exponentOf n d) :=
        (fractionSpan_le_div (by omega)).trans (div_le_divNearestEven _ _)
      have hstep : (exponentOf m d + 1) * fractionSpan ≤ exponentOf n d * fractionSpan :=
        Nat.mul_le_mul_right _ hlt
      rw [Nat.add_mul] at hstep
      omega
    · rw [heq]
      exact Nat.add_le_add_left (divNearestEven_mono _ h) _
  omega

/-! ## Scaled integers -/

theorem ofScaled_zero (radix : Nat) : zero = ofScaled 0 radix := by
  have hexponent : exponentOf 0 (2 ^ radix) = 0 := by simp [exponentOf, Nat.log2_zero]
  have hmagnitude : nearestMagnitude 0 (2 ^ radix) = 0 := by
    rw [nearestMagnitude_eq, hexponent]
    simp [divNearestEven]
  simp only [zero, ofScaled, ofRatio, Int.natAbs_zero, Nat.zero_mul, hmagnitude,
    Int.lt_irrefl, decide_false]

theorem isNaN_ofScaled (value : Int) (radix : Nat) : (ofScaled value radix).isNaN = false := by
  have hle : (ofScaled value radix).magnitude ≤ infinityMagnitude := Nat.min_le_right _ _
  simp only [isNaN, decide_eq_false_iff_not]
  omega

theorem rank_ofScaled_of_nonneg {value : Int} (radix : Nat) (h : 0 ≤ value) :
    (ofScaled value radix).rank =
      nearestMagnitude (value.natAbs * unitsPerOne) (2 ^ radix) := by
  have hsign : ¬ value < 0 := by omega
  simp [ofScaled, ofRatio, rank, hsign]

theorem rank_ofScaled_of_neg {value : Int} (radix : Nat) (h : value < 0) :
    (ofScaled value radix).rank =
      -(nearestMagnitude (value.natAbs * unitsPerOne) (2 ^ radix) : Int) := by
  simp [ofScaled, ofRatio, rank, h]

theorem rank_ofScaled_mono {v w : Int} (radix : Nat) (h : v ≤ w) :
    (ofScaled v radix).rank ≤ (ofScaled w radix).rank := by
  by_cases hv : v < 0
  · rw [rank_ofScaled_of_neg radix hv]
    by_cases hw : w < 0
    · rw [rank_ofScaled_of_neg radix hw]
      have habs : w.natAbs * unitsPerOne ≤ v.natAbs * unitsPerOne :=
        Nat.mul_le_mul_right _ (by omega)
      have := nearestMagnitude_mono (2 ^ radix) habs
      omega
    · rw [rank_ofScaled_of_nonneg radix (by omega)]
      omega
  · rw [rank_ofScaled_of_nonneg radix (by omega), rank_ofScaled_of_nonneg radix (by omega)]
    have habs : v.natAbs * unitsPerOne ≤ w.natAbs * unitsPerOne :=
      Nat.mul_le_mul_right _ (by omega)
    have := nearestMagnitude_mono (2 ^ radix) habs
    omega

theorem le_ofScaled {v w : Int} (radix : Nat) (h : v ≤ w) :
    (ofScaled v radix).le (ofScaled w radix) = true := by
  simp [le, isNaN_ofScaled, rank_ofScaled_mono radix h]

theorem zero_le_ofScaled {value : Int} (radix : Nat) (h : 0 ≤ value) :
    zero.le (ofScaled value radix) = true := by
  have hrank : zero.rank ≤ (ofScaled value radix).rank := by
    rw [rank_ofScaled_of_nonneg radix h]
    exact Int.natCast_nonneg _
  have hzero : zero.isNaN = false := by decide
  simp [le, isNaN_ofScaled, hzero, hrank]

end RadioPacket.Binary64
