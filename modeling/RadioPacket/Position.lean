/-!
# Bit positions

A packet is drawn as a sequence of 32-bit words.  Words are numbered from 0, and inside a word
bit 31 is the most significant one.  A `Position` is held as the number of bits that stand before
it, so positions add, subtract and compare as numbers; the word and the bit of the drawings are
views of that number.
-/

namespace RadioPacket

def wordBits : Nat := 32

/-- The place of one bit, counted from the most significant bit of the first word. -/
structure Position where
  offset : Nat
  deriving DecidableEq

namespace Position

/-- The most significant bit of word 0. -/
def start : Position := ⟨0⟩

/-- Bit `bit` of word `word`; bit numbers above 31 wrap around.  The number of the word has no limit
here, `toNat_offsetWord_eq_iff` tells how large it may be in machine words. -/
def ofWordBit (word bit : Nat) : Position :=
  ⟨word * wordBits + (wordBits - 1 - bit % wordBits)⟩

/-- The offset of bit `bit` of word `word`, computed in words of 64 bits. -/
def offsetWord (word bit : BitVec 64) : BitVec 64 := word * 32#64 + (31#64 - bit % 32#64)

/-- The word that holds the bit. -/
def word (p : Position) : Nat := p.offset / wordBits

/-- The number of the bit inside its word, from 31 down to 0. -/
def bit (p : Position) : Nat := wordBits - 1 - p.offset % wordBits

/-- The bit is the first one of its word. -/
def startsWord (p : Position) : Bool := p.offset % wordBits == 0

/-- The offset is a multiple of `bits`; an alignment of 0 or 1 always holds. -/
def isAligned (p : Position) (bits : Nat) : Bool :=
  decide (bits ≤ 1) || p.offset % bits == 0

def advance (p : Position) (bits : Nat) : Position := ⟨p.offset + bits⟩

/-- Moves backward by a number of bits, not beyond the start. -/
def retreat (p : Position) (bits : Nat) : Position := ⟨p.offset - bits⟩

/-- Number of bits from `q` to `p`, zero when `q` comes later. -/
def distanceFrom (p q : Position) : Nat := p.offset - q.offset

instance : HAdd Position Nat Position := ⟨advance⟩

instance : HSub Position Nat Position := ⟨retreat⟩

instance : Ord Position := ⟨fun p q => compare p.offset q.offset⟩

def text (p : Position) : String :=
  "word " ++ toString p.word ++ ", bit " ++ toString p.bit

@[simp] theorem offset_add (p : Position) (n : Nat) : (p + n).offset = p.offset + n := rfl

@[simp] theorem offset_sub (p : Position) (n : Nat) : (p - n).offset = p.offset - n := rfl

/-- A position is determined by its word and its bit. -/
theorem ofWordBit_word_bit (p : Position) : ofWordBit p.word p.bit = p := by
  cases p with
  | mk offset =>
    simp only [ofWordBit, word, bit, wordBits, mk.injEq]
    omega

/-- Machine words hold the offset of a bit exactly when the number of its word is below `2 ^ 59`.
The product wraps around above. -/
theorem toNat_offsetWord_eq_iff (word bit : BitVec 64) :
    (offsetWord word bit).toNat = (ofWordBit word.toNat bit.toNat).offset ↔
      word.toNat < 2 ^ 59 := by
  have hword : word.toNat < 2 ^ 64 := word.isLt
  have hmod : (bit % 32#64).toNat = bit.toNat % 32 := BitVec.toNat_umod
  have hbit : (31#64 - bit % 32#64).toNat = 31 - bit.toNat % 32 := by
    rw [BitVec.toNat_sub, hmod, BitVec.toNat_ofNat]
    omega
  have hoffset : (ofWordBit word.toNat bit.toNat).offset =
      word.toNat * 32 + (31 - bit.toNat % 32) := rfl
  rw [offsetWord, BitVec.toNat_add, BitVec.toNat_mul, hbit, BitVec.toNat_ofNat, hoffset]
  omega

end Position

end RadioPacket
