import Mathlib.Data.Nat.Digits.Defs
import RadioPacket.Proofs.Bits.Loop

/-!
# Byte strings as numbers

A byte string is the number that its bytes spell, the first one being the highest digit.  To read
some bits is to shift this number down until they are its lowest bits, and to cut off what is above
them.  To write some bits is to replace them, and as far as they lie outside the bytes, the write is
that of the leading bits alone.
-/

namespace RadioPacket.Bits

/-- The number that a byte string spells. -/
def number (data : Bytes) : Nat := Nat.ofDigits 256 (data.toList.reverse.map UInt8.toNat)

/-! ## Reading -/

theorem toNat_append (xs ys : List Bool) :
    toNat (xs ++ ys) = toNat xs * 2 ^ ys.length + toNat ys := by
  induction ys using List.reverseRecOn with
  | nil => rw [List.append_nil, List.length_nil, Nat.pow_zero, Nat.mul_one]; rfl
  | append_singleton ys bit ih =>
      rw [← List.append_assoc, toNat_append_singleton, ih, toNat_append_singleton,
        List.length_append, List.length_singleton, Nat.pow_succ]
      ring

theorem toNat_ofBytes (data : Bytes) : toNat (ofBytes data) = number data := by
  obtain ⟨bytes⟩ := data
  induction bytes using List.reverseRecOn with
  | nil => rfl
  | append_singleton bytes byte ih =>
      have hbits : ofBytes (bytes ++ [byte]).toArray =
          ofBytes bytes.toArray ++ ofNat 8 byte.toNat := by
        rw [ofBytes, List.flatMap_append, List.flatMap_singleton]
        rfl
      have hnumber : number (bytes ++ [byte]).toArray =
          byte.toNat + 256 * number bytes.toArray := by
        rw [number, List.reverse_append, List.reverse_singleton, List.singleton_append,
          List.map_cons, Nat.ofDigits_cons]
        rfl
      rw [hbits, toNat_append, ih, length_ofNat, toNat_ofNat, Nat.mod_eq_of_lt byte.toNat_lt,
        hnumber, Nat.mul_comm, Nat.add_comm]

/-- A byte string spells the bits in front of a window, the window and the bits behind it. -/
theorem number_eq (data : Bytes) {position width rest : Nat}
    (hsize : position + width + rest = 8 * data.size) :
    number data =
      (toNat (window data 0 position) * 2 ^ width + toNat (window data position width)) * 2 ^ rest +
        toNat (window data (position + width) rest) := by
  rw [← toNat_ofBytes, ofBytes_eq_window, ← hsize, window_add, window_add, toNat_append,
    toNat_append, length_window, length_window, Nat.zero_add, Nat.zero_add]

theorem toNat_window {data : Bytes} {position width : Nat}
    (hfit : position + width ≤ 8 * data.size) :
    toNat (window data position width) =
      number data / 2 ^ (8 * data.size - position - width) % 2 ^ width := by
  let rest := 8 * data.size - position - width
  have hinside := toNat_lt (window data position width)
  have hbehind := toNat_lt (window data (position + width) rest)
  rw [length_window] at hinside hbehind
  have hsize : position + width + rest = 8 * data.size := by omega
  rw [number_eq data hsize, Nat.mul_comm _ (2 ^ rest),
    Nat.mul_add_div (Nat.two_pow_pos rest), Nat.div_eq_of_lt hbehind, Nat.add_zero,
    Nat.mul_comm _ (2 ^ width), Nat.mul_add_mod, Nat.mod_eq_of_lt hinside]

/-- Reads of some bits, as arithmetic on the number of the whole byte string. -/
structure ReadsNumber (data : Bytes) (position width : Nat) : Prop where
  /-- A read fails when it asks for too much at once or for what is not there. -/
  refused : (∃ error, read data position width = .error error) ↔
    maxWidth < width ∨ 8 * data.size < position + width
  number : width ≤ maxWidth → position + width ≤ 8 * data.size →
    read data position width =
      .ok (number data / 2 ^ (8 * data.size - position - width) % 2 ^ width)
  /-- What is read at once can be read in two parts. -/
  joined : ∀ more, width + more ≤ maxWidth → position + (width + more) ≤ 8 * data.size →
    ∃ high low, read data position width = .ok high ∧ read data (position + width) more = .ok low ∧
      read data position (width + more) = .ok ((high <<< more) + low)

theorem readsNumber (data : Bytes) (position width : Nat) : ReadsNumber data position width where
  refused := by
    constructor
    · rintro ⟨error, hread⟩
      by_contra hlegal
      rw [not_or, Nat.not_lt, Nat.not_lt] at hlegal
      rw [read_eq_ok hlegal.1 hlegal.2] at hread
      cases hread
    · rintro (hwide | hout)
      · exact ⟨.tooManyBits, by rw [read, if_pos hwide]⟩
      · by_cases hwide : maxWidth < width
        · exact ⟨.tooManyBits, by rw [read, if_pos hwide]⟩
        · exact ⟨.outOfBounds, by rw [read, if_neg hwide, if_pos hout]⟩
  number hwidth hfit := by rw [read_eq_ok hwidth hfit, toNat_window hfit]
  joined more hwidth hfit := by
    refine ⟨_, _, read_eq_ok (by omega) (by omega), read_eq_ok (by omega) (by omega), ?_⟩
    rw [read_eq_ok hwidth hfit, window_add, toNat_append, length_window, Nat.shiftLeft_eq]

/-! ## Writing -/

theorem bitAt_scatter (data : Bytes) (position width value : Nat) {place : Nat}
    (hplace : place < 8 * data.size) :
    bitAt (scatter data position width value) place =
      if position ≤ place ∧ place < position + width then
        value.testBit (position + width - 1 - place)
      else bitAt data place := by
  induction width generalizing data position with
  | zero => rw [scatter, if_neg (by omega)]
  | succ width ih =>
      rw [scatter, ih _ _ (by rwa [size_setBit])]
      by_cases hfirst : place = position
      · subst hfirst
        rw [if_neg (by omega), if_pos (by omega), bitAt_setBit_self _ _ _ hplace]
        congr 1
        omega
      · rw [bitAt_setBit_of_ne _ _ _ _ hfirst]
        by_cases hinside : position + 1 ≤ place ∧ place < position + 1 + width
        · rw [if_pos hinside, if_pos (by omega)]
          congr 1
          omega
        · rw [if_neg hinside, if_neg (by omega)]

/-- Every bit inside the bytes is the one that is written there, or stays as it was. -/
theorem bitAt_write {data : Bytes} {position width : Nat} (value : Nat) (hwidth : width ≤ maxWidth)
    {place : Nat} (hplace : place < 8 * data.size) :
    bitAt (write data position width value) place =
      if position ≤ place ∧ place < position + width then
        value.testBit (position + width - 1 - place)
      else bitAt data place := by
  rw [write, Nat.min_eq_left hwidth, bitAt_scatter data position width value hplace]

theorem getElem_window (data : Bytes) (position width index : Nat)
    (hindex : index < (window data position width).length) :
    (window data position width)[index] = bitAt data (position + index) := by
  simp only [window, List.getElem_map, List.getElem_range]

theorem readBit_congr {a b : Bytes} {place : Nat} (hsize : a.size = b.size)
    (hbit : place < 8 * b.size → bitAt a place = bitAt b place) :
    readBit a place = readBit b place := by
  unfold readBit
  rw [hsize]
  split
  · next hplace => rw [hbit hplace]
  · rfl

/-- Writes of some bits of a value.  What is read from anywhere afterwards is what was written there
or what was there before. -/
structure WritesBits (data : Bytes) (position width value : Nat) : Prop where
  size : (write data position width value).size = data.size
  inside : position + width ≤ 8 * data.size →
    read (write data position width value) position width = .ok (value &&& mask width)
  outside : ∀ place, place < position ∨ position + width ≤ place →
    readBit (write data position width value) place = readBit data place
  /-- When a write runs past the end, the leading bits are written that fit. -/
  cut : 8 * data.size < position + width →
    window (write data position width value) position (8 * data.size - position) =
        (ofNat width value).take (8 * data.size - position) ∧
      ∀ place, place < position ∨ position + (8 * data.size - position) ≤ place →
        readBit (write data position width value) place = readBit data place

theorem writesBits (data : Bytes) (position value : Nat) {width : Nat} (hwidth : width ≤ maxWidth) :
    WritesBits data position width value := by
  have hsize := size_write data position width value
  refine ⟨hsize, ?_, ?_, ?_⟩
  · intro hfit
    rw [read_eq_ok hwidth (hsize.symm ▸ hfit), window_write data position width value hwidth hfit,
      toNat_ofNat, mask, Nat.min_eq_left hwidth, Nat.and_two_pow_sub_one_eq_mod]
  · intro place hplace
    exact readBit_congr hsize fun _ => bitAt_write_of_outside data position width value place hplace
  · intro hcut
    constructor
    · apply List.ext_getElem
      · rw [length_window, List.length_take, length_ofNat]
        omega
      · intro index hleft _
        rw [length_window] at hleft
        rw [List.getElem_take, getElem_ofNat, getElem_window, bitAt_write value hwidth (by omega),
          if_pos (by omega)]
        congr 1
        omega
    · intro place hplace
      apply readBit_congr hsize
      intro hinside
      exact bitAt_write_of_outside data position width value place (by omega)

/-! ## Both accounts -/

/-- Passing over the bits one at a time gives what is read and written by position. -/
structure RunsBitByBit (data : Bytes) (position width : Nat) : Prop where
  bit : (shiftDown data position).map UInt8.toNat = (readBit data position).map Bool.toNat
  read : (readWord data position width).map BitVec.toNat = read data position width
  write : ∀ word, writeWord data position width word = write data position width word.toNat

/-- Reads and writes of bits, also when they are carried out bit by bit.  A read gives the number of
the whole byte string, shifted down and cut off, and fails exactly when the bits are too many or not
all there.  A write puts the low bits of the value in their place, as far as there are bytes, and
touches no other bit. -/
theorem reads_and_writes_exact (data : Bytes) (position width : Nat) :
    ReadsNumber data position width ∧
      (width ≤ maxWidth → ∀ value, WritesBits data position width value) ∧
      RunsBitByBit data position width := by
  refine ⟨readsNumber data position width, ?_, ?_⟩
  · intro hwidth value
    exact writesBits data position value hwidth
  · exact ⟨map_shiftDown data position, map_readWord data position width,
      writeWord_eq data position width⟩

/-- Twelve bits across two bytes, and eight bits of which only four have room. -/
theorem reads_across_and_writes_cut :
    let data : Bytes := #[0x8A, 0xD0, 0xF7, 0x30]
    number data = 0x8AD0F730 ∧ read data 4 12 = .ok (number data / 2 ^ 16 % 2 ^ 12) ∧
      window (write #[0x60] 4 8 0xAF) 4 4 = [true, false, true, false] ∧
      readBit (write #[0x60] 4 8 0xAF) 1 = .ok true := by
  intro data
  have hread := (reads_and_writes_exact data 4 12).1.number (by decide) (by decide)
  obtain ⟨hwindow, hkept⟩ :=
    ((reads_and_writes_exact #[0x60] 4 8).2.1 (by decide) 0xAF).cut (by decide)
  exact ⟨rfl, hread, hwindow, (hkept 1 (by decide)).trans rfl⟩

end RadioPacket.Bits
