import RadioPacket.Proofs.Leaf.FixedPoint

/-!
# Equality of leaf values

Values compare by kind, and floats among them as numbers, so a value that is not a number would
differ from itself and the two zeros agree.  No leaf type accepts what is not a number, and both
zeros are written alike.  Equality of the values of a leaf type is therefore an equivalence, and
equal values have one pattern.
-/

namespace RadioPacket

/-- Equality among the things of one kind is an equivalence, and equal ones look the same to an
observer. -/
structure Comparable {α β : Type} (holds : α → Prop) (same : α → α → Prop) (observe : α → β) :
    Prop where
  refl : ∀ a, holds a → same a a
  symm : ∀ a b, holds a → holds b → same a b → same b a
  trans : ∀ a b c, holds a → holds b → holds c → same a b → same b c → same a c
  observe_eq : ∀ a b, holds a → holds b → same a b → observe a = observe b

theorem Comparable.imp {α β : Type} {holds holds' : α → Prop} {same : α → α → Prop}
    {observe : α → β} (h : Comparable holds same observe) (himp : ∀ a, holds' a → holds a) :
    Comparable holds' same observe where
  refl a ha := h.refl a (himp a ha)
  symm a b ha hb := h.symm a b (himp a ha) (himp b hb)
  trans a b c ha hb hc := h.trans a b c (himp a ha) (himp b hb) (himp c hc)
  observe_eq a b ha hb := h.observe_eq a b (himp a ha) (himp b hb)

namespace Binary64

variable {x y z : Binary64}

theorem sameNumber_iff :
    x.sameNumber y = true ↔ x.isNaN = false ∧ y.isNaN = false ∧ x.rank = y.rank := by
  simp [sameNumber, and_assoc]

theorem sameNumber_symm (h : x.sameNumber y = true) : y.sameNumber x = true := by
  obtain ⟨hx, hy, hrank⟩ := sameNumber_iff.mp h
  exact sameNumber_iff.mpr ⟨hy, hx, hrank.symm⟩

theorem sameNumber_trans (h : x.sameNumber y = true) (h' : y.sameNumber z = true) :
    x.sameNumber z = true := by
  obtain ⟨hx, _, hfirst⟩ := sameNumber_iff.mp h
  obtain ⟨_, hz, hsecond⟩ := sameNumber_iff.mp h'
  exact sameNumber_iff.mpr ⟨hx, hz, hfirst.trans hsecond⟩

theorem eq_or_zero_of_sameNumber (h : x.sameNumber y = true) :
    x = y ∨ x.magnitude = 0 ∧ y.magnitude = 0 := by
  obtain ⟨_, _, hrank⟩ := sameNumber_iff.mp h
  have hmagnitude : x.magnitude = y.magnitude := by rw [← natAbs_rank, hrank, natAbs_rank]
  obtain ⟨signX, magnitudeX, hltX⟩ := x
  obtain ⟨signY, magnitudeY, hltY⟩ := y
  simp only at hmagnitude
  subst hmagnitude
  cases signX with
  | false =>
    cases signY with
    | false => exact .inl rfl
    | true =>
      simp only [rank, Bool.false_eq_true, if_false, if_true] at hrank
      exact .inr ⟨by simp only; omega, by simp only; omega⟩
  | true =>
    cases signY with
    | true => exact .inl rfl
    | false =>
      simp only [rank, Bool.false_eq_true, if_false, if_true] at hrank
      exact .inr ⟨by simp only; omega, by simp only; omega⟩

theorem roundScaled_of_magnitude_eq_zero (radix : Nat) (h : x.magnitude = 0) :
    x.roundScaled radix = 0 := by
  have hpos : 0 < unitsPerOne := by exact_mod_cast unitsPerOne_pos
  have hrounded : (2 * (units x.magnitude * 2 ^ radix) + unitsPerOne) / (2 * unitsPerOne) = 0 := by
    rw [h, units_zero, Nat.zero_mul, Nat.mul_zero, Nat.zero_add]
    exact Nat.div_eq_of_lt (by omega)
  simp [roundScaled, hrounded]

/-- Equal numbers round alike. -/
theorem roundScaled_eq_of_sameNumber (radix : Nat) (h : x.sameNumber y = true) :
    x.roundScaled radix = y.roundScaled radix := by
  rcases eq_or_zero_of_sameNumber h with rfl | ⟨hx, hy⟩
  · rfl
  · rw [roundScaled_of_magnitude_eq_zero radix hx, roundScaled_of_magnitude_eq_zero radix hy]

end Binary64

namespace Scalar

variable {a b c : Scalar}

theorem same_symm (h : a.same b = true) : b.same a = true := by
  cases a <;> cases b <;> simp only [same, Bool.false_eq_true, beq_iff_eq] at h ⊢
  · exact h.symm
  · exact h.symm
  · exact h.symm
  · exact Binary64.sameNumber_symm h

theorem same_trans (h : a.same b = true) (h' : b.same c = true) : a.same c = true := by
  cases a <;> cases b <;> simp only [same, Bool.false_eq_true, beq_iff_eq] at h
  all_goals cases c <;> simp only [same, Bool.false_eq_true, beq_iff_eq] at h' ⊢
  · exact h.trans h'
  · exact h.trans h'
  · exact h.trans h'
  · exact Binary64.sameNumber_trans h h'

end Scalar

namespace LeafType

variable {type : LeafType} {a b : Scalar}

theorem same_self (h : type.Normal a) : a.same a = true := by
  by_cases hfixed : type.IsFixedPoint
  · obtain ⟨bits, radix, signed, hshape⟩ := hfixed
    obtain ⟨number, rfl, hadmitted⟩ := admitted_of_coerce hshape h
    exact Binary64.sameNumber_iff.mpr ⟨hadmitted.ordinary, hadmitted.ordinary, rfl⟩
  · exact same_self_of_normal h hfixed

theorem wireNumber_eq_of_sameNumber {x y : Binary64} (h : x.sameNumber y = true) :
    type.wireNumber (.float x) = type.wireNumber (.float y) := by
  unfold wireNumber
  cases hshape : type.shape with
  | fixedPoint bits radix signed => simp only [Binary64.roundScaled_eq_of_sameNumber radix h]
  | boolean _ => rfl
  | integer _ _ => rfl
  | nonZeroSize _ => rfl
  | enumeration _ => rfl

theorem pattern_eq_of_same (h : a.same b = true) : type.pattern a = type.pattern b := by
  have hnumber : type.wireNumber a = type.wireNumber b := by
    cases a <;> cases b <;> simp only [Scalar.same, Bool.false_eq_true, beq_iff_eq] at h
    · rw [h]
    · rw [h]
    · rw [h]
    · exact wireNumber_eq_of_sameNumber h
  rw [pattern, pattern, hnumber]

theorem comparable (type : LeafType) :
    Comparable type.Normal (fun a b => a.same b = true) type.pattern where
  refl _ h := same_self h
  symm _ _ _ _ h := Scalar.same_symm h
  trans _ _ _ _ _ _ h h' := Scalar.same_trans h h'
  observe_eq _ _ _ _ h := pattern_eq_of_same h

end LeafType

end RadioPacket
