import Mathlib.Data.List.Induction
import RadioPacket.Bits.Stream

/-!
# Windows of a byte string

Reading and writing work on addressed bits, streams do without addresses.  A window is the stream
that stands at a place of a byte string; reads give the number of a window, and a write is
described by the windows that it fills and the bits that it leaves alone.
-/

namespace RadioPacket.Bits

/-- The `width` bits from `position` on. -/
def window (data : Bytes) (position width : Nat) : List Bool :=
  (List.range width).map fun i => bitAt data (position + i)

@[simp] theorem length_window (data : Bytes) (position width : Nat) :
    (window data position width).length = width := by
  simp [window]

@[simp] theorem window_zero (data : Bytes) (position : Nat) : window data position 0 = [] := rfl

theorem window_succ (data : Bytes) (position width : Nat) :
    window data position (width + 1) =
      window data position width ++ [bitAt data (position + width)] := by
  simp [window, List.range_succ]

theorem window_add (data : Bytes) (position m n : Nat) :
    window data position (m + n) = window data position m ++ window data (position + m) n := by
  induction n with
  | zero => simp
  | succ n ih =>
      rw [← Nat.add_assoc, window_succ, ih, window_succ, List.append_assoc, Nat.add_assoc]

theorem window_congr {a b : Bytes} {position width : Nat}
    (h : ∀ q, position ≤ q → q < position + width → bitAt a q = bitAt b q) :
    window a position width = window b position width := by
  apply List.map_congr_left
  intro i hi
  have hlt : i < width := List.mem_range.mp hi
  exact h (position + i) (by omega) (by omega)

/-! ## Numbers and their bits -/

theorem toNat_append_singleton (bits : List Bool) (bit : Bool) :
    toNat (bits ++ [bit]) = 2 * toNat bits + bit.toNat := by
  simp [toNat, List.foldl_append]

theorem toNat_lt (bits : List Bool) : toNat bits < 2 ^ bits.length := by
  induction bits using List.reverseRecOn with
  | nil => exact Nat.one_pos
  | append_singleton bits bit ih =>
      have hbit : bit.toNat ≤ 1 := Bool.toNat_le bit
      rw [toNat_append_singleton, List.length_append, List.length_singleton, Nat.pow_succ]
      omega

theorem gather_eq_toNat (data : Bytes) (position width : Nat) :
    gather data position width = toNat (window data position width) := by
  induction width with
  | zero => rfl
  | succ width ih => rw [gather, window_succ, toNat_append_singleton, ih]

theorem getElem_ofNat (width value i : Nat) (hi : i < (ofNat width value).length) :
    (ofNat width value)[i] = value.testBit (width - 1 - i) := by
  induction width generalizing i with
  | zero => simp [ofNat] at hi
  | succ width ih =>
      cases i with
      | zero => simp [ofNat]
      | succ i =>
          have hlt : i < width := by simpa [ofNat] using hi
          have hindex : width + 1 - 1 - (i + 1) = width - 1 - i := by omega
          rw [hindex]
          simpa [ofNat] using ih i (by simpa using hlt)

theorem foldl_ofNat (width value start : Nat) :
    (ofNat width value).foldl (fun number bit => 2 * number + bit.toNat) start =
      start * 2 ^ width + value % 2 ^ width := by
  induction width generalizing start with
  | zero => simp [ofNat, Nat.mod_one]
  | succ width ih =>
      have hsplit : value % 2 ^ (width + 1) =
          2 ^ width * (value.testBit width).toNat + value % 2 ^ width := by
        rw [Nat.testBit, Nat.shiftRight_eq_div_pow, Nat.pow_succ, Nat.mod_mul]
        have hbit : (1 &&& value / 2 ^ width != 0).toNat = value / 2 ^ width % 2 := by
          rw [Nat.one_and_eq_mod_two]
          rcases Nat.mod_two_eq_zero_or_one (value / 2 ^ width) with h | h
          · simp [h]
          · simp [h]
        rw [hbit, Nat.add_comm]
      rw [ofNat, List.foldl_cons, ih, hsplit, Nat.pow_succ, Nat.add_mul]
      rw [Nat.mul_comm 2 start, Nat.mul_assoc, Nat.mul_comm 2, Nat.mul_comm _ (2 ^ width),
        Nat.add_assoc]

theorem toNat_ofNat (width value : Nat) : toNat (ofNat width value) = value % 2 ^ width := by
  simpa [toNat] using foldl_ofNat width value 0

theorem testBit_toNat (bits : List Bool) (i : Nat) :
    (toNat bits).testBit i = bits.reverse.getD i false := by
  induction bits using List.reverseRecOn generalizing i with
  | nil => exact Nat.zero_testBit i
  | append_singleton bits bit ih =>
      rw [toNat_append_singleton, List.reverse_append, List.reverse_singleton,
        List.singleton_append]
      cases i with
      | zero =>
          have hodd : (2 * toNat bits + bit.toNat) % 2 = bit.toNat := by
            have hbit : bit.toNat ≤ 1 := Bool.toNat_le bit
            omega
          rw [Nat.testBit_zero, hodd]
          cases bit with
          | false => rfl
          | true => rfl
      | succ i =>
          have hhalf : (2 * toNat bits + bit.toNat) / 2 = toNat bits := by
            have hbit : bit.toNat ≤ 1 := Bool.toNat_le bit
            omega
          rw [Nat.testBit_succ, hhalf, ih]
          rfl

theorem ofNat_toNat (bits : List Bool) : ofNat bits.length (toNat bits) = bits := by
  apply List.ext_getElem
  · rw [length_ofNat]
  · intro i hleft hright
    have hlt : bits.length - 1 - i < bits.reverse.length := by
      rw [List.length_reverse]
      omega
    have hindex : bits.length - 1 - (bits.length - 1 - i) = i := by omega
    rw [getElem_ofNat, testBit_toNat, List.getD_eq_getElem?_getD, List.getElem?_eq_getElem hlt,
      Option.getD_some, List.getElem_reverse]
    simp only [hindex]

theorem toNat_ne_zero (bits : List Bool) : (toNat bits != 0) = bits.any id := by
  induction bits using List.reverseRecOn with
  | nil => rfl
  | append_singleton bits bit ih =>
      rw [toNat_append_singleton, List.any_append, ← ih]
      cases bit with
      | false =>
          have hdouble : (2 * toNat bits != 0) = (toNat bits != 0) := by
            apply Bool.eq_iff_iff.mpr
            simp only [bne_iff_ne, ne_eq]
            omega
          simp [hdouble]
      | true => simp

theorem ofNat_mask {width : Nat} (hwidth : width ≤ maxWidth) :
    ofNat width (mask width) = List.replicate width true := by
  apply List.ext_getElem
  · simp
  · intro i hleft _
    have hi : i < width := by simpa using hleft
    rw [getElem_ofNat, mask, Nat.min_eq_left hwidth, Nat.testBit_two_pow_sub_one]
    simp
    omega

theorem ofNat_zero (width : Nat) : ofNat width 0 = blank width := by
  apply List.ext_getElem
  · simp
  · intro i _ _
    simp [getElem_ofNat, blank]

/-! ## Writing -/

theorem toNat_weight {index : Nat} (hindex : index < 8) :
    ((1 : UInt8) <<< UInt8.ofNat index).toNat = 2 ^ index := by
  have hmod : index % 2 ^ 8 % 8 = index := by omega
  have hpow : 2 ^ index < 2 ^ 8 := Nat.pow_lt_pow_right (by decide) hindex
  simp only [UInt8.toNat_shiftLeft, UInt8.toNat_ofNat', UInt8.toNat_one, Nat.shiftLeft_eq, hmod]
  omega

theorem testBit_setByteBit (byte : UInt8) (index other : Nat) (bit : Bool)
    (hindex : index < 8) (hother : other < 8) :
    (setByteBit byte index bit).toNat.testBit other =
      if other = index then bit else byte.toNat.testBit other := by
  have hpow : 2 ^ index < 2 ^ 8 := Nat.pow_lt_pow_right (by decide) hindex
  cases bit with
  | false =>
      have hnot : (~~~((1 : UInt8) <<< UInt8.ofNat index)).toNat = 2 ^ 8 - (2 ^ index + 1) := by
        simp only [UInt8.toNat_not, toNat_weight hindex, UInt8.size]
        omega
      simp only [setByteBit, Bool.false_eq_true, if_false, UInt8.toNat_and, hnot,
        Nat.testBit_and, Nat.testBit_two_pow_sub_succ hpow, Nat.testBit_two_pow]
      by_cases h : other = index
      · simp [h]
      · simp [h, Ne.symm h, hother]
  | true =>
      simp only [setByteBit, if_true, UInt8.toNat_or, toNat_weight hindex, Nat.testBit_or,
        Nat.testBit_two_pow]
      by_cases h : other = index
      · simp [h]
      · simp [h, Ne.symm h]

@[simp] theorem size_setBit (data : Bytes) (position : Nat) (bit : Bool) :
    (setBit data position bit).size = data.size := by
  simp [setBit]

theorem bitAt_setBit_self (data : Bytes) (position : Nat) (bit : Bool)
    (hfit : position < 8 * data.size) :
    bitAt (setBit data position bit) position = bit := by
  have hbyte : position / 8 < data.size := by omega
  simp only [bitAt, setBit, Array.getElem?_modify, if_true, Array.getElem?_eq_getElem hbyte,
    Option.map_some]
  rw [testBit_setByteBit _ _ _ _ (by omega) (by omega), if_pos rfl]

theorem bitAt_setBit_of_ne (data : Bytes) (position other : Nat) (bit : Bool)
    (hne : other ≠ position) :
    bitAt (setBit data position bit) other = bitAt data other := by
  simp only [bitAt, setBit, Array.getElem?_modify]
  by_cases hbyte : position / 8 = other / 8
  · simp only [if_pos hbyte]
    cases hget : data[other / 8]? with
    | none => rfl
    | some byte =>
        simp only [Option.map_some]
        rw [testBit_setByteBit _ _ _ _ (by omega) (by omega), if_neg (by omega)]
  · simp only [if_neg hbyte]

@[simp] theorem size_scatter (data : Bytes) (position width value : Nat) :
    (scatter data position width value).size = data.size := by
  induction width generalizing data position with
  | zero => rfl
  | succ width ih => rw [scatter, ih, size_setBit]

theorem bitAt_scatter_of_outside (data : Bytes) (position width value q : Nat)
    (hq : q < position ∨ position + width ≤ q) :
    bitAt (scatter data position width value) q = bitAt data q := by
  induction width generalizing data position with
  | zero => rfl
  | succ width ih =>
      rw [scatter, ih _ _ (by omega), bitAt_setBit_of_ne _ _ _ _ (by omega)]

theorem window_scatter (data : Bytes) (position width value : Nat)
    (hfit : position + width ≤ 8 * data.size) :
    window (scatter data position width value) position width = ofNat width value := by
  induction width generalizing data position with
  | zero => rfl
  | succ width ih =>
      rw [Nat.add_comm width 1, window_add, Nat.add_comm 1 width, scatter, ofNat,
        ih _ _ (by simpa using (by omega : position + 1 + width ≤ 8 * data.size))]
      -- The highest bit is written first, and the others stay behind it.
      have hfirst : bitAt (scatter (setBit data position (value.testBit width)) (position + 1)
          width value) position = value.testBit width := by
        rw [bitAt_scatter_of_outside _ _ _ _ _ (by omega), bitAt_setBit_self _ _ _ (by omega)]
      simp [window, hfirst]

@[simp] theorem size_write (data : Bytes) (position width value : Nat) :
    (write data position width value).size = data.size := by
  simp [write]

/-- A write touches no bit in front of its place or behind it. -/
theorem bitAt_write_of_outside (data : Bytes) (position width value q : Nat)
    (hq : q < position ∨ position + width ≤ q) :
    bitAt (write data position width value) q = bitAt data q := by
  have hmin : min width maxWidth ≤ width := Nat.min_le_left _ _
  exact bitAt_scatter_of_outside _ _ _ _ _ (by omega)

/-- A write inside the bytes fills its place with the low bits of the value. -/
theorem window_write (data : Bytes) (position width value : Nat) (hwidth : width ≤ maxWidth)
    (hfit : position + width ≤ 8 * data.size) :
    window (write data position width value) position width = ofNat width value := by
  rw [write, Nat.min_eq_left hwidth]
  exact window_scatter data position width value hfit

/-! ## Reading -/

theorem read_eq_ok {data : Bytes} {position width : Nat} (hwidth : width ≤ maxWidth)
    (hfit : position + width ≤ 8 * data.size) :
    read data position width = .ok (toNat (window data position width)) := by
  rw [read, if_neg (by omega), if_neg (by omega), gather_eq_toNat]

theorem ofBytes_eq_window (data : Bytes) : ofBytes data = window data 0 (8 * data.size) := by
  obtain ⟨bytes⟩ := data
  induction bytes using List.reverseRecOn with
  | nil => rfl
  | append_singleton bytes byte ih =>
      have hprefix : window (bytes ++ [byte]).toArray 0 (8 * bytes.length) =
          window bytes.toArray 0 (8 * bytes.length) := by
        apply window_congr
        intro q _ hq
        have hbyte : q / 8 < bytes.length := by omega
        simp [bitAt, List.getElem?_append_left hbyte]
      have hlast : window (bytes ++ [byte]).toArray (0 + 8 * bytes.length) 8 =
          ofNat 8 byte.toNat := by
        apply List.ext_getElem
        · simp
        · intro i hleft _
          have hi : i < 8 := by simpa using hleft
          have hdiv : (8 * bytes.length + i) / 8 = bytes.length := by omega
          have hmod : i % 8 = i := Nat.mod_eq_of_lt hi
          rw [getElem_ofNat]
          simp [window, bitAt, hdiv, hmod]
      have hsize : 8 * (bytes ++ [byte]).toArray.size = 8 * bytes.length + 8 := by
        simp
        omega
      have hstep : ofBytes (bytes ++ [byte]).toArray =
          ofBytes bytes.toArray ++ ofNat 8 byte.toNat := by
        simp [ofBytes]
      rw [hstep, ih, hsize, window_add, hprefix, hlast]
      simp

theorem ofBytes_injective : Function.Injective ofBytes := by
  rintro ⟨left⟩ ⟨right⟩ heq
  congr 1
  change left.flatMap (fun byte => ofNat 8 byte.toNat) =
    right.flatMap (fun byte => ofNat 8 byte.toNat) at heq
  induction left generalizing right with
  | nil =>
      cases right with
      | nil => rfl
      | cons byte right => cases heq
  | cons first left ih =>
      cases right with
      | nil => cases heq
      | cons byte right =>
          obtain ⟨hbyte, hrest⟩ := List.append_inj heq rfl
          have hnumber := congrArg toNat hbyte
          rw [toNat_ofNat, toNat_ofNat, Nat.mod_eq_of_lt first.toNat_lt,
            Nat.mod_eq_of_lt byte.toNat_lt] at hnumber
          rw [UInt8.toNat_inj.mp hnumber, ih right hrest]

theorem window_eq_blank {data : Bytes} {position width : Nat}
    (h : ∀ q, position ≤ q → bitAt data q = false) :
    window data position width = blank width := by
  apply List.ext_getElem
  · simp
  · intro i _ _
    simpa [window, blank] using h (position + i) (Nat.le_add_right position i)

theorem bitAt_zeros (size position : Nat) : bitAt (zeros size) position = false := by
  simp only [bitAt, zeros, Array.getElem?_replicate]
  split
  · next byte hbyte =>
      split at hbyte
      · cases hbyte
        exact Nat.zero_testBit _
      · cases hbyte
  · rfl

/-! ## Writers -/

/-- On bits that are zero, `f` puts `bits` at `position`, and it touches no other bit. -/
structure Puts (f : Bytes → Bytes) (position : Nat) (bits : List Bool) : Prop where
  size_eq : ∀ data, (f data).size = data.size
  inside : ∀ data, position + bits.length ≤ 8 * data.size →
    window data position bits.length = blank bits.length →
    window (f data) position bits.length = bits
  outside : ∀ data q, q < position ∨ position + bits.length ≤ q →
    bitAt (f data) q = bitAt data q

namespace Puts

theorem congr {f g : Bytes → Bytes} {position : Nat} {bits : List Bool}
    (h : Puts f position bits) (heq : ∀ data, g data = f data) : Puts g position bits := by
  obtain rfl : g = f := funext heq
  exact h

theorem skip (position width : Nat) : Puts id position (blank width) where
  size_eq _ := rfl
  inside data _ hblank := by simpa using hblank
  outside _ _ _ := rfl

theorem write (position value : Nat) {width : Nat} (hwidth : width ≤ maxWidth) :
    Puts (fun data => Bits.write data position width value) position (ofNat width value) where
  size_eq data := size_write data position width value
  inside data hfit _ := by
    rw [length_ofNat] at hfit ⊢
    exact window_write data position width value hwidth hfit
  outside data q hq := bitAt_write_of_outside data position width value q (by simpa using hq)

/-- Writers of neighbouring places put one stream behind the other. -/
theorem append {f g : Bytes → Bytes} {position : Nat} {xs ys : List Bool}
    (hf : Puts f position xs) (hg : Puts g (position + xs.length) ys) :
    Puts (g ∘ f) position (xs ++ ys) where
  size_eq data := by rw [Function.comp, hg.size_eq, hf.size_eq]
  inside data hfit hblank := by
    rw [List.length_append] at hfit hblank ⊢
    rw [window_add, blank, ← List.replicate_append_replicate] at hblank
    obtain ⟨hx, hy⟩ := List.append_inj hblank (by simp)
    -- `f` leaves the place of `g` blank, and `g` leaves what `f` has put.
    have hyKept : window (f data) (position + xs.length) ys.length =
        window data (position + xs.length) ys.length :=
      window_congr fun q hle _ => hf.outside data q (Or.inr hle)
    have hxKept : window (g (f data)) position xs.length = window (f data) position xs.length :=
      window_congr fun q _ hlt => hg.outside (f data) q (Or.inl hlt)
    have hxPut : window (f data) position xs.length = xs := hf.inside data (by omega) hx
    have hyPut : window (g (f data)) (position + xs.length) ys.length = ys :=
      hg.inside (f data) (by rw [hf.size_eq]; omega) (hyKept.trans hy)
    rw [Function.comp, window_add, hxKept, hxPut, hyPut]
  outside data q hq := by
    rw [List.length_append] at hq
    rw [Function.comp, hg.outside _ q (by omega), hf.outside _ q (by omega)]

/-- What a writer puts in front of a blank byte string is there afterwards. -/
theorem window_zeros {f : Bytes → Bytes} {bits : List Bool} (h : Puts f 0 bits) {size : Nat}
    (hfit : bits.length ≤ 8 * size) : window (f (zeros size)) 0 bits.length = bits := by
  apply h.inside
  · rw [zeros, Array.size_replicate]
    omega
  · exact window_eq_blank fun q _ => bitAt_zeros size q

theorem ofBytes_zeros {f : Bytes → Bytes} {bits : List Bool} (h : Puts f 0 bits) {size : Nat}
    (hfit : bits.length ≤ 8 * size) :
    ofBytes (f (zeros size)) = bits ++ blank (8 * size - bits.length) := by
  have hsize : (f (zeros size)).size = size := by rw [h.size_eq, zeros, Array.size_replicate]
  have hpadding : window (f (zeros size)) (0 + bits.length) (8 * size - bits.length) =
      blank (8 * size - bits.length) := by
    apply window_eq_blank
    intro q hq
    rw [h.outside _ q (Or.inr hq), bitAt_zeros]
  rw [ofBytes_eq_window, hsize, ← Nat.add_sub_cancel' hfit, window_add, hpadding,
    h.window_zeros hfit, Nat.add_sub_cancel_left]

end Puts

end RadioPacket.Bits
