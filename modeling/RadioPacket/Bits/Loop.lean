import RadioPacket.Bits.Basic

/-!
# Reading and writing bit by bit

The second account of reads and writes passes over the bits one at a time, with words of 64 bits.  A
read shifts each bit into a word from below.  A write takes the bits of a word from the top down,
masks each of them into its byte, and stops at the first one that has no byte.
-/

namespace RadioPacket.Bits

/-- The bit at a position, shifted to the bottom of its byte. -/
def shiftDown (data : Bytes) (position : Nat) : Except BitError UInt8 :=
  if 8 * data.size ≤ position then .error .outOfBounds
  else .ok ((data.getD (position / 8) 0 >>> UInt8.ofNat (7 - position % 8)) &&& 1)

/-- Shifts the `count` bits from `position` on into a word, the first one before the others. -/
def shiftIn (data : Bytes) :
    (count position : Nat) → BitVec 64 → Except BitError (BitVec 64)
  | 0, _, word => .ok word
  | count + 1, position, word => do
      let bit ← shiftDown data position
      shiftIn data count (position + 1) ((word <<< 1) ||| bit.toBitVec.setWidth 64)

/-- Reads `width` bits into a word. -/
def readWord (data : Bytes) (position width : Nat) : Except BitError (BitVec 64) :=
  if maxWidth < width then .error .tooManyBits
  else if 8 * data.size < position + width then .error .outOfBounds
  else shiftIn data width position 0

/-- Clears one bit of a byte and puts another one there, given at the bottom of a byte. -/
def maskIn (byte : UInt8) (index : Nat) (bit : UInt8) : UInt8 :=
  (byte &&& ~~~(1 <<< UInt8.ofNat index)) ||| (bit <<< UInt8.ofNat index)

/-- Writes the low `count` bits of a word from `position` on, as far as there are bytes. -/
def shiftOut (word : BitVec 64) : (count position : Nat) → Bytes → Bytes
  | 0, _, data => data
  | count + 1, position, data =>
      match data[position / 8]? with
      | none => data
      | some byte =>
          let bit : UInt8 := ⟨((word >>> count) &&& 1).setWidth 8⟩
          shiftOut word count (position + 1)
            (data.setIfInBounds (position / 8) (maskIn byte (7 - position % 8) bit))

/-- Writes the low `width` bits of a word, or all 64 if it has no more. -/
def writeWord (data : Bytes) (position width : Nat) (word : BitVec 64) : Bytes :=
  shiftOut word (min width maxWidth) position data

end RadioPacket.Bits
