import RadioPacket.Leaf.Codec

/-!
# Codecs on machine words

The second account of the codecs computes with words of 64 bits.  A word has no sign of its own: a
signed and an unsigned number with the same bits are the same word, and a number that has no word
is cut to its low bits.  Limits of a type need more room than a word has, and stay numbers.
-/

namespace RadioPacket

namespace Bits

/-- The word whose low `width` bits are ones.  A whole word cannot be shifted out. -/
def maskWord (width : Nat) : BitVec 64 :=
  if 64 ≤ width then BitVec.allOnes 64 else (1#64 <<< width) - 1#64

/-- Repeats the highest of the low `width` bits above them, by shifting it to the top and back.  A
width of 0 stands for the whole word, as does every width above 63. -/
def signExtendWord (word : BitVec 64) (width : Nat) : BitVec 64 :=
  if width = 0 ∨ 64 ≤ width then word
  else (word <<< (64 - width)).sshiftRight (64 - width)

end Bits

/-- A value as a machine holds it. -/
inductive WordScalar where
  | bool (value : Bool)
  /-- Two's complement. -/
  | signed (word : BitVec 64)
  | unsigned (word : BitVec 64)
  | float (value : Binary64)

/-- The value that is held. -/
def WordScalar.scalar : WordScalar → Scalar
  | .bool value => .bool value
  | .signed word => .signed word.toInt
  | .unsigned word => .unsigned word.toNat
  | .float value => .float value

namespace LeafType

/-- An integer as a type with limits holds it. -/
def heldWord (type : LeafType) (number : Int) : WordScalar :=
  if type.isSigned then .signed (BitVec.ofInt 64 number) else .unsigned (BitVec.ofInt 64 number)

/-- An integer within the limits of the type, cut to a word. -/
def coerceIntWord (type : LeafType) (value : WordScalar) : Except ValueError WordScalar :=
  match value.scalar.integer? with
  | none => .error (type.kindError value.scalar.kind)
  | some number =>
      let (low, high) := type.intRange?.getD (0, 0)
      if number < low ∨ high < number then
        .error (.range value.scalar (.signed low) (.signed high))
      else .ok (type.heldWord number)

/-- Checks a value and brings it to the normal form of the type. -/
def coerceWord (type : LeafType) (value : WordScalar) : Except ValueError WordScalar :=
  match type.shape with
  | .boolean _ =>
      match value with
      | .bool truth => .ok (.bool truth)
      | .signed word => .ok (.bool (word != 0))
      | .unsigned word => .ok (.bool (word != 0))
      | .float _ => .error (type.kindError value.scalar.kind)
  | .integer _ _ => type.coerceIntWord value
  | .nonZeroSize _ => type.coerceIntWord value
  | .fixedPoint _ _ _ =>
      match value.scalar.toFloat?, type.floatRange? with
      | some number, some (low, high) =>
          if low.le number && number.le high then .ok (.float number)
          else .error (.range value.scalar (.float low) (.float high))
      | _, _ => .error (type.kindError value.scalar.kind)
  | .enumeration table =>
      match value.scalar.integer? with
      | none => .error (type.kindError value.scalar.kind)
      | some number =>
          if (0 ≤ number ∧ number < 2 ^ 64) ∧ (table.symbol? number.toNat).isSome then
            .ok (.unsigned (BitVec.ofInt 64 number))
          else .error (.notMember table.name value.scalar.text)

/-- The word of a normal value before it is cut to the width.  A value of another kind counts as
zero. -/
def wireWord (type : LeafType) (value : WordScalar) : BitVec 64 :=
  match type.shape, value with
  | .boolean _, .bool true => BitVec.allOnes 64
  | .integer _ _, .signed word => word
  | .integer _ _, .unsigned word => word
  | .fixedPoint _ radix signed, .float number =>
      BitVec.ofInt 64 (clampWord signed (number.roundScaled radix))
  | .nonZeroSize _, .unsigned word => if word = 0 then 0 else word - 1
  | .enumeration _, .unsigned word => word
  | _, _ => 0

/-- Checks a value and gives its pattern. -/
def encodeWord (type : LeafType) (value : WordScalar) : Except ValueError (BitVec 64) :=
  (type.coerceWord value).map fun normal => type.wireWord normal &&& Bits.maskWord type.bits

/-- The value of a pattern. -/
def decodeWord (type : LeafType) (pattern : BitVec 64) : Except ValueError WordScalar :=
  let raw := pattern &&& Bits.maskWord type.bits
  match type.shape with
  | .boolean _ => .ok (.bool (raw != 0))
  | .integer bits true => .ok (.signed (Bits.signExtendWord raw bits))
  | .integer _ false => .ok (.unsigned raw)
  | .fixedPoint bits radix signed =>
      let steps : Int := if signed then (Bits.signExtendWord raw bits).toInt else raw.toNat
      .ok (.float (.ofScaled steps radix))
  | .nonZeroSize _ => .ok (.unsigned (raw + 1))
  | .enumeration table =>
      if (table.symbol? raw.toNat).isSome then .ok (.unsigned raw)
      else .error (.notMember table.name (toString raw.toNat))

end LeafType

end RadioPacket
