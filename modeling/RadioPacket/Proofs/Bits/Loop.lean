import RadioPacket.Bits.Loop
import RadioPacket.Proofs.Bits.Window

/-!
# Bit by bit and all at once

Passing over the bits one at a time comes to the same as reading and writing them by their
positions.  A word that has taken in some bits is the number that they write, and it has room for
all of them, since no more than 64 are read.  A write that stops at the end of the bytes leaves out
only bits that have no place anyway.
-/

namespace RadioPacket.Bits

/-! ## Single bits -/

theorem toNat_shiftDown_byte (byte : UInt8) {index : Nat} (hindex : index < 8) :
    ((byte >>> UInt8.ofNat index) &&& 1).toNat = (byte.toNat.testBit index).toNat := by
  have hmod : index % 2 ^ 8 % 8 = index := by omega
  rw [UInt8.toNat_and, UInt8.toNat_shiftRight, UInt8.toNat_ofNat', hmod, UInt8.toNat_one,
    Nat.and_one_is_mod, Nat.shiftRight_eq_div_pow, Nat.toNat_testBit]

theorem map_shiftDown (data : Bytes) (position : Nat) :
    (shiftDown data position).map UInt8.toNat = (readBit data position).map Bool.toNat := by
  unfold shiftDown readBit
  by_cases hfit : position < 8 * data.size
  · have hbyte : position / 8 < data.size := by omega
    have hindex : 7 - position % 8 < 8 := by omega
    rw [if_neg (by omega), if_pos hfit, bitAt, Array.getElem?_eq_getElem hbyte]
    simp only [Except.map, Array.getD_eq_getD_getElem?, Array.getElem?_eq_getElem hbyte,
      Option.getD_some, toNat_shiftDown_byte _ hindex]
  · rw [if_pos (by omega), if_neg hfit]
    rfl

theorem shiftDown_eq_ok {data : Bytes} {position : Nat} (hfit : position < 8 * data.size) :
    ∃ bit, shiftDown data position = .ok bit ∧ bit.toNat = (bitAt data position).toNat := by
  have hmap := map_shiftDown data position
  rw [readBit, if_pos hfit] at hmap
  rcases hbit : shiftDown data position with error | bit
  · rw [hbit] at hmap
    cases hmap
  · rw [hbit] at hmap
    exact ⟨bit, rfl, Except.ok.inj hmap⟩

/-- A bit is shifted into a word from below if the word has room for it. -/
theorem toNat_shiftIn_bit {word : BitVec 64} {bit : UInt8} (hword : 2 * word.toNat + 1 < 2 ^ 64)
    (hbit : bit.toNat < 2) :
    ((word <<< 1) ||| bit.toBitVec.setWidth 64).toNat = 2 * word.toNat + bit.toNat := by
  have hsmall : bit.toBitVec.toNat < 2 ^ 64 := Nat.lt_trans hbit (by decide)
  rw [BitVec.toNat_or, BitVec.toNat_shiftLeft, BitVec.toNat_setWidth, Nat.mod_eq_of_lt hsmall,
    Nat.shiftLeft_eq, Nat.pow_one, Nat.mul_comm, Nat.mod_eq_of_lt (by omega)]
  exact (Nat.two_pow_add_eq_or_of_lt (i := 1) hbit word.toNat).symm

theorem and_not_or_self (byte weight : UInt8) :
    (byte &&& ~~~weight) ||| weight = byte ||| weight := by
  apply UInt8.toBitVec_inj.mp
  ext index hindex
  simp only [UInt8.toBitVec_or, UInt8.toBitVec_and, UInt8.toBitVec_not, BitVec.getElem_or,
    BitVec.getElem_and, BitVec.getElem_not]
  cases weight.toBitVec[index] with
  | false => simp
  | true => simp

theorem maskIn_eq (byte : UInt8) (index : Nat) (bit : Bool) :
    maskIn byte index (UInt8.ofNat bit.toNat) = setByteBit byte index bit := by
  cases bit with
  | false =>
      have hzero : UInt8.ofNat false.toNat <<< UInt8.ofNat index = 0 := UInt8.zero_shiftLeft
      rw [maskIn, hzero, UInt8.or_zero]
      rfl
  | true => exact and_not_or_self byte _

theorem shiftedOut_eq (word : BitVec 64) (count : Nat) :
    (⟨((word >>> count) &&& 1).setWidth 8⟩ : UInt8) =
      UInt8.ofNat (word.toNat.testBit count).toNat := by
  have hone : (1 : BitVec 64).toNat = 1 := rfl
  have hsmall : (word.toNat.testBit count).toNat < 2 ^ 8 :=
    Nat.lt_of_le_of_lt (Bool.toNat_le _) (by decide)
  apply UInt8.toNat_inj.mp
  rw [UInt8.toNat_ofNat', Nat.mod_eq_of_lt hsmall]
  change (((word >>> count) &&& 1).setWidth 8).toNat = _
  rw [BitVec.toNat_setWidth, BitVec.toNat_and, BitVec.toNat_ushiftRight, hone, Nat.and_one_is_mod,
    Nat.shiftRight_eq_div_pow, ← Nat.toNat_testBit, Nat.mod_eq_of_lt hsmall]

/-! ## All bits -/

/-- A word takes in the bits from a position on behind those that it holds, if it has room for
them. -/
theorem map_shiftIn (data : Bytes) {count position : Nat} {word : BitVec 64}
    (hcount : count ≤ 64) (hfit : position + count ≤ 8 * data.size)
    (hroom : word.toNat < 2 ^ (64 - count)) :
    (shiftIn data count position word).map BitVec.toNat =
      .ok ((window data position count).foldl (fun number bit => 2 * number + bit.toNat)
        word.toNat) := by
  induction count generalizing position word with
  | zero => rfl
  | succ count ih =>
      have hinside : position < 8 * data.size := by omega
      obtain ⟨bit, hbit, hvalue⟩ := shiftDown_eq_ok hinside
      have hsmall : bit.toNat < 2 := by
        rw [hvalue]
        exact Nat.lt_succ_of_le (Bool.toNat_le _)
      have hdouble : 2 ^ (64 - count) = 2 * 2 ^ (64 - (count + 1)) := by
        rw [← Nat.pow_succ']
        congr 1
        omega
      have htop : 2 ^ (64 - count) ≤ 2 ^ 64 := Nat.pow_le_pow_right (by decide) (by omega)
      have hfree : 2 * word.toNat + 1 < 2 ^ 64 := by omega
      have hnext := toNat_shiftIn_bit hfree hsmall
      have hwindow : window data position (count + 1) =
          bitAt data position :: window data (position + 1) count := by
        rw [Nat.add_comm count 1, window_add]
        rfl
      rw [shiftIn, hbit]
      change (shiftIn data count (position + 1) _).map BitVec.toNat = _
      rw [ih (by omega) (by omega) (by rw [hnext]; omega), hnext, hvalue, hwindow, List.foldl_cons]

theorem map_readWord (data : Bytes) (position width : Nat) :
    (readWord data position width).map BitVec.toNat = read data position width := by
  unfold readWord read
  by_cases hwide : maxWidth < width
  · rw [if_pos hwide, if_pos hwide]
    rfl
  · by_cases hfit : 8 * data.size < position + width
    · rw [if_neg hwide, if_neg hwide, if_pos hfit, if_pos hfit]
      rfl
    · have hcount : width ≤ 64 := Nat.le_of_not_lt hwide
      rw [if_neg hwide, if_neg hwide, if_neg hfit, if_neg hfit,
        map_shiftIn data hcount (by omega) (Nat.two_pow_pos _), gather_eq_toNat]
      rfl

theorem scatter_eq_self {data : Bytes} {position : Nat} (hout : data.size ≤ position / 8)
    (width value : Nat) : scatter data position width value = data := by
  induction width generalizing position with
  | zero => rfl
  | succ width ih =>
      have hsame : setBit data position (value.testBit width) = data := by
        apply Array.ext_getElem?
        intro index
        rw [setBit, Array.getElem?_modify]
        split
        · next hindex =>
            subst hindex
            rw [Array.getElem?_eq_none hout]
            rfl
        · rfl
      rw [scatter, hsame]
      exact ih (by omega)

/-- Shifting bits out of a word writes them. -/
theorem shiftOut_eq_scatter (word : BitVec 64) (count position : Nat) (data : Bytes) :
    shiftOut word count position data = scatter data position count word.toNat := by
  induction count generalizing position data with
  | zero => rfl
  | succ count ih =>
      rw [shiftOut]
      rcases hbyte : data[position / 8]? with _ | byte
      · exact (scatter_eq_self (Array.getElem?_eq_none_iff.mp hbyte) _ _).symm
      · have hset : data.setIfInBounds (position / 8)
            (setByteBit byte (7 - position % 8) (word.toNat.testBit count)) =
              setBit data position (word.toNat.testBit count) := by
          apply Array.ext_getElem?
          intro index
          rw [setBit, Array.getElem?_modify, Array.getElem?_setIfInBounds]
          obtain ⟨hlt, hvalue⟩ := Array.getElem?_eq_some_iff.mp hbyte
          by_cases hindex : position / 8 = index
          · subst hindex
            rw [if_pos rfl, if_pos rfl, if_pos hlt, hbyte]
            rfl
          · rw [if_neg hindex, if_neg hindex]
        simp only [shiftedOut_eq, maskIn_eq, hset]
        exact ih _ _

theorem writeWord_eq (data : Bytes) (position width : Nat) (word : BitVec 64) :
    writeWord data position width word = write data position width word.toNat :=
  shiftOut_eq_scatter word _ position data

end RadioPacket.Bits
