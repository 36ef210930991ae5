import RadioPacket.Bits.Basic
import RadioPacket.Scalar

/-!
# Leaf types

A leaf type is a primitive value shape: a number of bits on the wire and a rule for what they
mean.  A `LeafShape` is any choice of parameters; a `LeafType` is a shape whose parameters passed
the check, as those of a type table do.  Legality is part of the type, so nothing that takes a
`LeafType` checks it again.

Placing a field in a layout is no check of its type either: a field may be as long as a packet.  What
is said of layouts is said under the condition that the types of their leaf fields were checked.  A
shape of more than 64 bits, made without the check, would find a place like any other, and reading
it would fail.
-/

namespace RadioPacket

structure EnumTable where
  name : String
  bits : Nat
  /-- Symbols and their values in the order of declaration. -/
  symbols : List (String × Nat)
  deriving DecidableEq

/-- What is wrong with a symbol table. -/
inductive EnumFault where
  | tooWide (symbol : String) (value bits : Nat)
  | repeated (symbol : String) (value : Nat)
  | empty
  /-- The name already stands for another table. -/
  | redeclared
  deriving DecidableEq

/-- Why parameters do not make a leaf type. -/
inductive LeafError where
  | width (kind : String) (bits : Nat)
  | radix (bits radix : Nat)
  | enumeration (name : String) (fault : EnumFault)
  deriving DecidableEq

/-- The wording of a width that does not suit what it was given for. -/
def LeafError.widthMessage (kind : String) (bits : Nat) : String :=
  "invalid width of " ++ toString bits ++ " bits for " ++ kind

def EnumFault.message : EnumFault → String
  | .tooWide symbol value bits =>
      symbol ++ " = " ++ toString value ++ " does not fit " ++ toString bits ++ " bits"
  | .repeated symbol value => symbol ++ " = " ++ toString value ++ " is declared twice"
  | .empty => "no symbols"
  | .redeclared => "redeclared with a different symbol table"

def LeafError.message : LeafError → String
  | .width kind bits => LeafError.widthMessage kind bits
  | .radix bits places =>
      "radix " ++ toString places ++ " is out of range for a " ++ toString bits ++
        "-bit fixed-point type"
  | .enumeration name fault => "invalid enum `" ++ name ++ "`: " ++ fault.message

namespace EnumTable

def symbol? (table : EnumTable) (value : Nat) : Option String :=
  (table.symbols.find? fun entry => entry.2 == value).map (·.1)

/-- The value of the first symbol with the given name; ASCII letters match in either case. -/
def valueOf? (table : EnumTable) (symbol : String) : Option Nat :=
  (table.symbols.find? fun entry => entry.1.map Char.toLower == symbol.map Char.toLower).map (·.2)

/-- The first symbol that does not fit the width, or repeats a name or a value of `seen`. -/
def symbolFault? (bits : Nat) (seen : List (String × Nat)) :
    List (String × Nat) → Option EnumFault
  | [] => none
  | (symbol, value) :: rest =>
      if Bits.mask bits < value then some (.tooWide symbol value bits)
      else if seen.any fun entry => entry.1 == symbol || entry.2 == value then
        some (.repeated symbol value)
      else symbolFault? bits (seen ++ [(symbol, value)]) rest

/-- The first fault of a table: its symbols are checked in order, and there must be one. -/
def fault? (table : EnumTable) : Option EnumFault :=
  match symbolFault? table.bits [] table.symbols with
  | some fault => some fault
  | none => if table.symbols.isEmpty then some .empty else none

end EnumTable

/-- Parameters of a leaf type. -/
inductive LeafShape where
  /-- Any pattern with a one in it reads as true; true writes all ones. -/
  | boolean (bits : Nat)
  /-- Two's complement when signed. -/
  | integer (bits : Nat) (signed : Bool)
  /-- An integer counted in steps of `2 ^ -radix`. -/
  | fixedPoint (bits radix : Nat) (signed : Bool)
  /-- Stores the value less one, so the values are `1` to `2 ^ bits`. -/
  | nonZeroSize (bits : Nat)
  | enumeration (table : EnumTable)
  deriving DecidableEq

namespace LeafShape

def bits : LeafShape → Nat
  | .boolean bits => bits
  | .integer bits _ => bits
  | .fixedPoint bits _ _ => bits
  | .nonZeroSize bits => bits
  | .enumeration table => table.bits

def kind : LeafShape → String
  | .boolean _ => "boolean"
  | .integer _ _ => "integer"
  | .fixedPoint _ _ _ => "fixed-point"
  | .nonZeroSize _ => "non-zero size"
  | .enumeration _ => "enum"

/-- The widest legal type of the kind.  A size needs one more bit than its width for its value. -/
def maxBits : LeafShape → Nat
  | .nonZeroSize _ => 63
  | _ => 64

/-- The first reason why the parameters are illegal.  The width is checked before all else. -/
def fault? (shape : LeafShape) : Option LeafError :=
  if shape.bits = 0 ∨ shape.maxBits < shape.bits then some (.width shape.kind shape.bits)
  else
    match shape with
    | .fixedPoint bits radix _ => if bits < radix then some (.radix bits radix) else none
    | .enumeration table => table.fault?.map (.enumeration table.name)
    | _ => none

end LeafShape

/-- A leaf shape with legal parameters. -/
structure LeafType where
  shape : LeafShape
  legal : shape.fault? = none
  deriving DecidableEq

/-- The leaf type of a shape, or what is wrong with it. -/
def LeafShape.check (shape : LeafShape) : Except LeafError LeafType :=
  match h : shape.fault? with
  | none => .ok ⟨shape, h⟩
  | some error => .error error

namespace LeafType

def bits (type : LeafType) : Nat := type.shape.bits

def kind (type : LeafType) : String := type.shape.kind

def isSigned (type : LeafType) : Bool :=
  match type.shape with
  | .integer _ signed => signed
  | .fixedPoint _ _ signed => signed
  | _ => false

def table? (type : LeafType) : Option EnumTable :=
  match type.shape with
  | .enumeration table => some table
  | _ => none

/-- The smallest step of a fixed-point type, one for all others. -/
def resolution (type : LeafType) : Binary64 :=
  match type.shape with
  | .fixedPoint _ radix _ => Binary64.ofScaled 1 radix
  | _ => Binary64.one

/-- The least and the greatest legal number of an integer or a size. -/
def intRange? (type : LeafType) : Option (Int × Int) :=
  match type.shape with
  | .integer bits true => some (-2 ^ (bits - 1), 2 ^ (bits - 1) - 1)
  | .integer bits false => some (0, 2 ^ bits - 1)
  | .nonZeroSize bits => some (1, 2 ^ bits)
  | _ => none

/-- The least and the greatest legal number of a fixed-point type.  Limits that need more than 53
significant bits are rounded to the nearest double. -/
def floatRange? (type : LeafType) : Option (Binary64 × Binary64) :=
  match type.shape with
  | .fixedPoint bits radix true =>
      some (.ofScaled (-2 ^ (bits - 1)) radix, .ofScaled (2 ^ (bits - 1) - 1) radix)
  | .fixedPoint bits radix false => some (.zero, .ofScaled (2 ^ bits - 1) radix)
  | _ => none

/-- What a field of the type holds before anything is assigned. -/
def default (type : LeafType) : Scalar :=
  match type.shape with
  | .boolean _ => .bool false
  | .integer _ true => .signed 0
  | .integer _ false => .unsigned 0
  | .fixedPoint _ _ _ => .float .zero
  | .nonZeroSize _ => .unsigned 1
  | .enumeration table => .unsigned ((table.symbols.head?.map (·.2)).getD 0)

end LeafType

end RadioPacket
