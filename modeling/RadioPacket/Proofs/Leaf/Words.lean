import RadioPacket.Leaf.Words
import RadioPacket.Proofs.Leaf.Canonical

/-!
# Words stand for numbers

Computing with words of 64 bits comes to the same as computing with numbers.  A number is cut to its
low bits when it becomes a word, and the mask of a type cuts further, so nothing is lost that the
width of the type would keep; shifting to the top and back takes a word to the one residue that lies
around zero.
-/

namespace RadioPacket

namespace Bits

variable {width : Nat}

theorem toNat_maskWord (width : Nat) : (maskWord width).toNat = mask width := by
  unfold maskWord mask
  split
  · next hwide =>
      rw [Nat.min_eq_right (show maxWidth ≤ width from hwide), BitVec.toNat_allOnes]
      rfl
  · next hnarrow =>
      have hlt : width < 64 := Nat.lt_of_not_le hnarrow
      have hpower : 2 ^ width < 2 ^ 64 := Nat.pow_lt_pow_right (by decide) hlt
      have hshift : ((1#64) <<< width).toNat = 2 ^ width := by
        have hone : (1#64).toNat = 1 := rfl
        rw [BitVec.toNat_shiftLeft, hone, Nat.shiftLeft_eq, Nat.one_mul, Nat.mod_eq_of_lt hpower]
      rw [Nat.min_eq_left (show width ≤ maxWidth from hlt.le), BitVec.toNat_sub_of_le, hshift]
      · rfl
      · rw [BitVec.le_def, hshift]
        exact Nat.one_le_two_pow

theorem toNat_and_maskWord (hle : width ≤ 64) (word : BitVec 64) :
    (word &&& maskWord width).toNat = word.toNat % 2 ^ width := by
  rw [BitVec.toNat_and, toNat_maskWord, mask, Nat.min_eq_left (show width ≤ maxWidth from hle),
    Nat.and_two_pow_sub_one_eq_mod]

theorem toNat_ofInt_and_maskWord (hle : width ≤ 64) (number : Int) :
    (BitVec.ofInt 64 number &&& maskWord width).toNat = (number % 2 ^ width).toNat := by
  have hspan : ((2 ^ 64 : Nat) : Int) = 2 ^ 64 := rfl
  have hnonneg : 0 ≤ number % (2 : Int) ^ 64 := Int.emod_nonneg _ (by decide)
  have hdvd : (2 : Int) ^ width ∣ 2 ^ 64 := by exact_mod_cast Nat.pow_dvd_pow 2 hle
  have hcut : (((number % 2 ^ 64).toNat % 2 ^ width : Nat) : Int) = number % 2 ^ width := by
    rw [Int.natCast_emod, Int.toNat_of_nonneg hnonneg, Int.natCast_pow]
    exact Int.emod_emod_of_dvd _ hdvd
  rw [toNat_and_maskWord hle, BitVec.toNat_ofInt, hspan, ← hcut, Int.toNat_natCast]

/-- A residue around zero keeps its place when everything is scaled by a power of two. -/
theorem bmod_mul_two_pow (number : Int) (hpos : 0 < width) (shift : Nat) :
    (number * 2 ^ shift).bmod (2 ^ width * 2 ^ shift) = number.bmod (2 ^ width) * 2 ^ shift := by
  have hcast : ((2 ^ width * 2 ^ shift : Nat) : Int) = 2 ^ width * 2 ^ shift := by push_cast; rfl
  have hwidth : ((2 ^ width : Nat) : Int) = 2 ^ width := by push_cast; rfl
  have hscale : (0 : Int) < 2 ^ shift := Int.pow_pos (by decide)
  have hhalf := LeafType.two_pow_half hpos
  have hlow := Int.le_bmod (x := number) (Nat.two_pow_pos width)
  have hhigh := Int.bmod_lt (x := number) (Nat.two_pow_pos width)
  have hsplit : number * 2 ^ shift = number.bmod (2 ^ width) * 2 ^ shift +
      ((2 ^ width * 2 ^ shift : Nat) : Int) * number.bdiv (2 ^ width) := by
    have hnumber := Int.bmod_add_bdiv number (2 ^ width)
    rw [hwidth] at hnumber
    rw [hcast, Int.mul_right_comm, ← Int.add_mul, hnumber]
  rw [hwidth, hhalf] at hlow hhigh
  have hfloor : -2 ^ (width - 1) * 2 ^ shift ≤ number.bmod (2 ^ width) * 2 ^ shift :=
    Int.mul_le_mul_of_nonneg_right (by omega) hscale.le
  have hceiling : number.bmod (2 ^ width) * 2 ^ shift < 2 ^ (width - 1) * 2 ^ shift :=
    Int.mul_lt_mul_of_pos_right (by omega) hscale
  rw [Int.neg_mul] at hfloor
  have hscaled : (2 : Int) ^ width * 2 ^ shift = 2 * (2 ^ (width - 1) * 2 ^ shift) := by
    rw [hhalf, Int.mul_assoc]
  rw [hsplit, Int.add_mul_bmod_self_left]
  apply Int.bmod_eq_of_le
  · rw [hcast, hscaled]
    omega
  · rw [hcast, hscaled]
    omega

/-- Shifting to the top and back is sign extension. -/
theorem toInt_signExtendWord (word : BitVec 64) (width : Nat) :
    (signExtendWord word width).toInt = signExtend word.toNat width := by
  unfold signExtendWord signExtend
  split
  · next hwhole =>
      have hexponent : (if width = 0 then maxWidth else min width maxWidth) = 64 := by
        rcases hwhole with hzero | hwide
        · rw [if_pos hzero]
          rfl
        · rw [if_neg (by omega)]
          exact Nat.min_eq_right hwide
      rw [hexponent, BitVec.toInt_eq_toNat_bmod]
  · next hpart =>
      have hpos : 0 < width := Nat.pos_of_ne_zero fun hzero => hpart (.inl hzero)
      have hlt : width < 64 := Nat.lt_of_not_le fun hwide => hpart (.inr hwide)
      have hspan : 2 ^ 64 = 2 ^ width * 2 ^ (64 - width) := by
        rw [← Nat.pow_add, Nat.add_sub_of_le hlt.le]
      have hscale : (2 : Int) ^ (64 - width) ≠ 0 := (Int.pow_pos (by decide)).ne'
      rw [if_neg hpos.ne', Nat.min_eq_left (show width ≤ maxWidth from hlt.le),
        BitVec.toInt_sshiftRight, BitVec.toInt_shiftLeft, Nat.shiftLeft_eq, hspan,
        Int.natCast_mul, Int.natCast_pow, Int.shiftRight_eq_div_pow, Int.natCast_pow]
      have hshifted := bmod_mul_two_pow word.toNat hpos (64 - width)
      have htwo : ((2 : Nat) : Int) = 2 := rfl
      rw [htwo, hshifted, Int.mul_ediv_cancel _ hscale]

theorem bne_zero_eq (word : BitVec 64) : (word != 0) = (word.toNat != 0) := by
  rw [Bool.eq_iff_iff, bne_iff_ne, bne_iff_ne]
  exact BitVec.toNat_inj.not.symm

theorem toInt_ofInt_of_mem {number : Int} (hlow : -2 ^ 63 ≤ number) (hhigh : number < 2 ^ 63) :
    (BitVec.ofInt 64 number).toInt = number :=
  BitVec.toInt_ofInt_eq_self (by decide) hlow hhigh

theorem toNat_ofInt_of_mem {number : Int} (hlow : 0 ≤ number) (hhigh : number < 2 ^ 64) :
    (BitVec.ofInt 64 number).toNat = number.toNat := by
  have hspan : ((2 ^ 64 : Nat) : Int) = 2 ^ 64 := rfl
  rw [BitVec.toNat_ofInt, hspan, Int.emod_eq_of_lt hlow hhigh]

theorem pred_eq_ofInt (word : BitVec 64) :
    (if word = 0 then 0 else word - 1) = BitVec.ofInt 64 (word.toNat - 1 : Nat) := by
  have hlt := word.isLt
  rw [BitVec.ofInt_natCast]
  apply BitVec.eq_of_toNat_eq
  rw [BitVec.toNat_ofNat, Nat.mod_eq_of_lt (by omega)]
  split
  · next hzero =>
      rw [hzero]
      rfl
  · next hne =>
      have hpos : 0 < word.toNat := Nat.pos_of_ne_zero fun hzero =>
        hne (BitVec.eq_of_toNat_eq hzero)
      exact BitVec.toNat_sub_of_le (BitVec.le_def.mpr hpos)

end Bits

namespace LeafType

variable {type : LeafType}

/-- The codec of the type comes to the same on words as on numbers. -/
structure RunsOnWords (type : LeafType) : Prop where
  coerce : ∀ value, (type.coerceWord value).map WordScalar.scalar = type.coerce value.scalar
  encode : ∀ value, (type.encodeWord value).map BitVec.toNat = type.encode value.scalar
  decode : ∀ word, (type.decodeWord word).map WordScalar.scalar = type.decode word.toNat

/-! ## Patterns -/

theorem wireWord_eq (type : LeafType) (value : WordScalar) :
    type.wireWord value = BitVec.ofInt 64 (type.wireNumber value.scalar) := by
  unfold wireWord wireNumber
  have hsigned (word : BitVec 64) : word = BitVec.ofInt 64 word.toInt := BitVec.ofInt_toInt.symm
  have hunsigned (word : BitVec 64) : word = BitVec.ofInt 64 word.toNat := by
    rw [BitVec.ofInt_natCast, BitVec.ofNat_toNat, BitVec.setWidth_eq]
  cases type.shape with
  | boolean _ =>
      cases value with
      | bool truth =>
          cases truth with
          | false => rfl
          | true => rfl
      | signed _ => rfl
      | unsigned _ => rfl
      | float _ => rfl
  | integer _ _ =>
      cases value with
      | bool _ => rfl
      | signed word => exact hsigned word
      | unsigned word => exact hunsigned word
      | float _ => rfl
  | fixedPoint _ _ _ =>
      cases value with
      | bool _ => rfl
      | signed _ => rfl
      | unsigned _ => rfl
      | float _ => rfl
  | nonZeroSize _ =>
      cases value with
      | bool _ => rfl
      | signed _ => rfl
      | unsigned word => exact Bits.pred_eq_ofInt word
      | float _ => rfl
  | enumeration _ =>
      cases value with
      | bool _ => rfl
      | signed _ => rfl
      | unsigned word => exact hunsigned word
      | float _ => rfl

/-- The pattern of a value is the same word by word. -/
theorem toNat_wireWord (type : LeafType) (value : WordScalar) :
    (type.wireWord value &&& Bits.maskWord type.bits).toNat = type.pattern value.scalar := by
  rw [wireWord_eq, Bits.toNat_ofInt_and_maskWord type.bits_le, pattern]

/-! ## Accepting -/

theorem map_coerceIntWord {low high : Int} {normal : Int → Scalar}
    (hrange : type.intRange? = some (low, high))
    (hheld : ∀ number, low ≤ number → number ≤ high →
      (type.heldWord number).scalar = normal number) (value : WordScalar) :
    (type.coerceIntWord value).map WordScalar.scalar =
      type.coerceInt low high normal value.scalar := by
  unfold coerceIntWord coerceInt
  rw [hrange]
  rcases value.scalar.integer? with _ | number
  · rfl
  · simp only [Option.getD_some]
    by_cases hout : number < low ∨ high < number
    · rw [if_pos hout, if_pos hout]
      rfl
    · rw [if_neg hout, if_neg hout]
      exact congrArg Except.ok (hheld number (by omega) (by omega))

/-- Checking a value comes to the same word by word. -/
theorem map_coerceWord (type : LeafType) (value : WordScalar) :
    (type.coerceWord value).map WordScalar.scalar = type.coerce value.scalar := by
  have hpos := type.bits_pos
  have hle := LeafShape.bits_le_of_fault?_eq_none type.legal
  have hlegal := type.legal
  unfold coerceWord coerce
  rw [LeafType.bits] at hpos
  cases hshape : type.shape with
  | boolean _ =>
      cases value with
      | bool truth =>
          cases truth with
          | false => rfl
          | true => rfl
      | signed word =>
          have hzero : (word != 0) = (word.toInt != 0) := by
            rw [Bool.eq_iff_iff, bne_iff_ne, bne_iff_ne]
            exact BitVec.toInt_ne.symm
          exact congrArg (Except.ok ∘ Scalar.bool) hzero
      | unsigned word =>
          have hzero : (word != 0) = ((word.toNat : Int) != 0) := by
            rw [Bits.bne_zero_eq, Bool.eq_iff_iff, bne_iff_ne, bne_iff_ne, Int.natCast_ne_zero]
          exact congrArg (Except.ok ∘ Scalar.bool) hzero
      | float _ => rfl
  | integer bits signed =>
      rw [hshape, LeafShape.bits] at hpos hle
      replace hle : bits ≤ 64 := hle
      cases signed with
      | true =>
          have hlimit : (2 : Int) ^ (bits - 1) ≤ 2 ^ 63 := by
            exact_mod_cast Nat.pow_le_pow_right (by decide) (show bits - 1 ≤ 63 by omega)
          apply map_coerceIntWord (by rw [intRange?, hshape])
          intro number hlow hhigh
          rw [heldWord, isSigned, hshape, if_pos rfl, WordScalar.scalar,
            Bits.toInt_ofInt_of_mem (by omega) (by omega)]
      | false =>
          have hlimit : (2 : Int) ^ bits ≤ 2 ^ 64 := by
            exact_mod_cast Nat.pow_le_pow_right (by decide) hle
          apply map_coerceIntWord (by rw [intRange?, hshape])
          intro number hlow hhigh
          rw [heldWord, isSigned, hshape, if_neg Bool.false_ne_true, WordScalar.scalar,
            Bits.toNat_ofInt_of_mem hlow (by omega)]
  | nonZeroSize bits =>
      rw [hshape, LeafShape.bits] at hle
      replace hle : bits ≤ 63 := hle
      have hlimit : (2 : Int) ^ bits ≤ 2 ^ 63 := by
        exact_mod_cast Nat.pow_le_pow_right (by decide) hle
      apply map_coerceIntWord (by rw [intRange?, hshape])
      intro number hlow hhigh
      rw [heldWord, isSigned, hshape, if_neg Bool.false_ne_true, WordScalar.scalar,
        Bits.toNat_ofInt_of_mem (by omega) (by omega)]
  | fixedPoint _ _ _ =>
      rcases value.scalar.toFloat? with _ | number
      · rfl
      · rcases type.floatRange? with _ | ⟨low, high⟩
        · rfl
        · simp only
          split
          · rfl
          · rfl
  | enumeration table =>
      rcases value.scalar.integer? with _ | number
      · rfl
      · rw [hshape] at hlegal
        -- A declared number has a word.
        have hroom : (table.symbol? number.toNat).isSome → number < 2 ^ 64 := by
          intro hmember
          have hlt := EnumTable.lt_of_symbol? (LeafShape.fault?_of_enumeration hlegal) hmember
          rw [hshape, LeafShape.bits] at hle
          have hspan : 2 ^ table.bits ≤ 2 ^ 64 := Nat.pow_le_pow_right (by decide) hle
          omega
        by_cases hmember : 0 ≤ number ∧ (table.symbol? number.toNat).isSome
        · have hlt := hroom hmember.2
          have hboth : (0 ≤ number ∧ number < 2 ^ 64) ∧ (table.symbol? number.toNat).isSome :=
            ⟨⟨hmember.1, hlt⟩, hmember.2⟩
          simp only [if_pos hmember, if_pos hboth]
          exact congrArg (Except.ok ∘ Scalar.unsigned) (Bits.toNat_ofInt_of_mem hmember.1 hlt)
        · have hneither : ¬ ((0 ≤ number ∧ number < 2 ^ 64) ∧
              (table.symbol? number.toNat).isSome) :=
            fun hboth => hmember ⟨hboth.1.1, hboth.2⟩
          simp only [if_neg hmember, if_neg hneither]
          rfl

theorem map_encodeWord (type : LeafType) (value : WordScalar) :
    (type.encodeWord value).map BitVec.toNat = type.encode value.scalar := by
  rw [encode, ← map_coerceWord, encodeWord]
  rcases type.coerceWord value with error | normal
  · rfl
  · exact congrArg Except.ok (type.toNat_wireWord normal)

/-! ## Reading -/

theorem map_decodeWord (type : LeafType) (word : BitVec 64) :
    (type.decodeWord word).map WordScalar.scalar = type.decode word.toNat := by
  have hlow := Bits.toNat_and_maskWord type.bits_le word
  have hle := LeafShape.bits_le_of_fault?_eq_none type.legal
  have hraw : (word &&& Bits.maskWord type.bits).toNat < 2 ^ type.shape.bits := by
    rw [hlow]
    exact Nat.mod_lt _ (Nat.two_pow_pos type.bits)
  unfold decodeWord decode
  simp only [← hlow]
  generalize word &&& Bits.maskWord type.bits = raw at hraw ⊢
  cases hshape : type.shape with
  | boolean _ => exact congrArg (Except.ok ∘ Scalar.bool) (Bits.bne_zero_eq raw)
  | integer bits signed =>
      cases signed with
      | true => exact congrArg (Except.ok ∘ Scalar.signed) (Bits.toInt_signExtendWord raw bits)
      | false => rfl
  | fixedPoint bits radix signed =>
      cases signed with
      | true =>
          simp only [if_true, Bits.toInt_signExtendWord]
          rfl
      | false => rfl
  | nonZeroSize bits =>
      rw [hshape, LeafShape.bits] at hraw hle
      have hroom : 2 ^ bits ≤ 2 ^ 63 := Nat.pow_le_pow_right (by decide) hle
      have hnext : (raw + 1).toNat = raw.toNat + 1 := by
        rw [BitVec.toNat_add, Nat.mod_eq_of_lt]
        · rfl
        · have hone : (1 : BitVec 64).toNat = 1 := rfl
          omega
      exact congrArg (Except.ok ∘ Scalar.unsigned) hnext
  | enumeration table =>
      simp only
      split
      · rfl
      · rfl

theorem runsOnWords (type : LeafType) : type.RunsOnWords where
  coerce := type.map_coerceWord
  encode := type.map_encodeWord
  decode := type.map_decodeWord

end LeafType

end RadioPacket
