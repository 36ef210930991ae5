import RadioPacket.Bits.Basic

/-!
# Bit streams

The same bits seen without addresses: a number is the list of its bits and a byte string the list
of the bits of its bytes, the most significant bit first.  Encoders that write at offsets are
compared with encoders that simply put streams one behind the other.
-/

namespace RadioPacket.Bits

/-- The low `width` bits of a number. -/
def ofNat : (width value : Nat) → List Bool
  | 0, _ => []
  | width + 1, value => value.testBit width :: ofNat width value

/-- The number written by some bits. -/
def toNat (bits : List Bool) : Nat := bits.foldl (fun value bit => 2 * value + bit.toNat) 0

def ofBytes (data : Bytes) : List Bool := data.toList.flatMap fun byte => ofNat 8 byte.toNat

/-- A run of zero bits. -/
def blank (width : Nat) : List Bool := List.replicate width false

@[simp] theorem length_ofNat (width value : Nat) : (ofNat width value).length = width := by
  induction width with
  | zero => rfl
  | succ width ih => simp [ofNat, ih]

@[simp] theorem length_blank (width : Nat) : (blank width).length = width := by simp [blank]

end RadioPacket.Bits
