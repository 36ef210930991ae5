/-!
# Reading and writing bits of a byte string

Bits are numbered from the high bit of the first byte.  A read or a write names the number of its
first bit and a width of at most 64 bits; the value is an unsigned number whose most significant
bit comes first.  A read outside the bytes is an error, a write outside them is dropped.
-/

-- A power of numbers is the same term whatever else is imported.
attribute [instance (1100), default_instance 20000] instPowNat

namespace RadioPacket

abbrev Bytes := Array UInt8

/-- Why bits cannot be read. -/
inductive BitError where
  | outOfBounds
  | tooManyBits
  deriving DecidableEq

def BitError.message : BitError → String
  | .outOfBounds => "bit range out of bounds"
  | .tooManyBits => "more than 64 bits requested in one read"

namespace Bits

/-- The widest number that is read or written in one step. -/
def maxWidth : Nat := 64

def bytesFor (bits : Nat) : Nat := (bits + 7) / 8

/-- The number whose low `width` bits are ones, at most 64 of them. -/
def mask (width : Nat) : Nat := 2 ^ min width maxWidth - 1

/-- The low `width` bits of a 64-bit pattern read in two's complement.  A width of 0 stands for
the whole pattern, as does every width above 63. -/
def signExtend (value width : Nat) : Int :=
  (value : Int).bmod (2 ^ (if width = 0 then maxWidth else min width maxWidth))

/-- The bit at `position`; bits outside the bytes count as zeros. -/
def bitAt (data : Bytes) (position : Nat) : Bool :=
  match data[position / 8]? with
  | some byte => byte.toNat.testBit (7 - position % 8)
  | none => false

def readBit (data : Bytes) (position : Nat) : Except BitError Bool :=
  if position < 8 * data.size then .ok (bitAt data position) else .error .outOfBounds

/-- The number written in the `width` bits from `position` on. -/
def gather (data : Bytes) (position : Nat) : (width : Nat) → Nat
  | 0 => 0
  | width + 1 => 2 * gather data position width + (bitAt data (position + width)).toNat

/-- Reads `width` bits as an unsigned number.  The width is checked before the range. -/
def read (data : Bytes) (position width : Nat) : Except BitError Nat :=
  if maxWidth < width then .error .tooManyBits
  else if 8 * data.size < position + width then .error .outOfBounds
  else .ok (gather data position width)

/-- Replaces one bit of a byte, bit 7 being the high one. -/
def setByteBit (byte : UInt8) (index : Nat) (bit : Bool) : UInt8 :=
  let weight : UInt8 := 1 <<< UInt8.ofNat index
  if bit then byte ||| weight else byte &&& ~~~weight

/-- Replaces one bit; a position outside the bytes changes nothing. -/
def setBit (data : Bytes) (position : Nat) (bit : Bool) : Bytes :=
  data.modify (position / 8) fun byte => setByteBit byte (7 - position % 8) bit

/-- Writes the low `width` bits of `value` from `position` on, the high one first. -/
def scatter (data : Bytes) (position : Nat) : (width value : Nat) → Bytes
  | 0, _ => data
  | width + 1, value =>
      scatter (setBit data position (value.testBit width)) (position + 1) width value

/-- Overwrites `width` bits, at most 64, with the low bits of `value`.  Bits that fall past the
end of the data are dropped. -/
def write (data : Bytes) (position width value : Nat) : Bytes :=
  scatter data position (min width maxWidth) value

def zeros (size : Nat) : Bytes := Array.replicate size 0

end Bits

end RadioPacket
