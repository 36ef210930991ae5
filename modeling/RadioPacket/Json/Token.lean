import RadioPacket.Json.Basic

/-!
# Tokens of a JSON text

The text is cut into punctuation and scalar values before its structure is read.  Strings come
with their escapes resolved; escapes of half a surrogate pair are refused.
-/

namespace RadioPacket.Json

inductive Token where
  | openBrace
  | closeBrace
  | openBracket
  | closeBracket
  | comma
  | colon
  | text (value : String)
  /-- A literal or a number. -/
  | scalar (value : Json)

def isBlank (c : Char) : Bool := c == ' ' || c == '\n' || c == '\t' || c == '\r'

def hexDigit? (c : Char) : Option Nat :=
  if '0' ≤ c ∧ c ≤ '9' then some (c.toNat - '0'.toNat)
  else if 'a' ≤ c ∧ c ≤ 'f' then some (c.toNat - 'a'.toNat + 10)
  else if 'A' ≤ c ∧ c ≤ 'F' then some (c.toNat - 'A'.toNat + 10)
  else none

def codeUnit? : List Char → Option (Nat × List Char)
  | a :: b :: c :: d :: rest => do
      let a ← hexDigit? a
      let b ← hexDigit? b
      let c ← hexDigit? c
      let d ← hexDigit? d
      some (((a * 16 + b) * 16 + c) * 16 + d, rest)
  | _ => none

/-- The character of a `\u` escape, whose digits follow; a high surrogate takes the low one that
must come next with it. -/
def unicodeEscape? (cs : List Char) : Option (Char × List Char) := do
  let (unit, rest) ← codeUnit? cs
  if 0xD800 ≤ unit ∧ unit < 0xDC00 then
    match rest with
    | '\\' :: 'u' :: rest =>
        let (low, rest) ← codeUnit? rest
        if 0xDC00 ≤ low ∧ low < 0xE000 then
          some (Char.ofNat (0x10000 + (unit - 0xD800) * 0x400 + (low - 0xDC00)), rest)
        else none
    | _ => none
  else if 0xDC00 ≤ unit ∧ unit < 0xE000 then none
  else some (Char.ofNat unit, rest)

/-- The character of an escape, whose text follows its backslash. -/
def escape? : List Char → Option (Char × List Char)
  | [] => none
  | c :: rest =>
      if c == '"' || c == '\\' || c == '/' then some (c, rest)
      else if c == 'b' then some ('\x08', rest)
      else if c == 'f' then some ('\x0c', rest)
      else if c == 'n' then some ('\n', rest)
      else if c == 'r' then some ('\r', rest)
      else if c == 't' then some ('\t', rest)
      else if c == 'u' then unicodeEscape? rest
      else none

/-- The rest of a string behind its opening quote, `seen` holding its characters so far in
reverse.  The fuel bounds the number of characters. -/
def stringBody? : (fuel : Nat) → (seen : List Char) → List Char → Option (String × List Char)
  | 0, _, _ => none
  | _, _, [] => none
  | fuel + 1, seen, c :: rest =>
      if c == '"' then some (String.ofList seen.reverse, rest)
      else if c == '\\' then do
        let (escaped, rest) ← escape? rest
        stringBody? fuel (escaped :: seen) rest
      else if c.toNat < 0x20 then none
      else stringBody? fuel (c :: seen) rest

/-- The number written by decimal digits. -/
def ofDigits (digits : List Char) : Nat :=
  digits.foldl (fun value digit => 10 * value + (digit.toNat - '0'.toNat)) 0

/-- The digits at the start of a text, at least one. -/
def digits? (cs : List Char) : Option (List Char × List Char) :=
  let digits := cs.takeWhile Char.isDigit
  if digits.isEmpty then none else some (digits, cs.dropWhile Char.isDigit)

/-- The digits behind a point, if there is one. -/
def fraction? : List Char → Option (List Char × List Char)
  | '.' :: rest => digits? rest
  | rest => some ([], rest)

/-- The number of an exponent's digits.  It is cut at a bound far beyond the range of doubles, so
that no text makes a power of ten too large to compute. -/
def exponentSize (digits : List Char) : Int := min (ofDigits digits) 100000

/-- The exponent, `none` in the first place when there is no mark for one. -/
def exponent? : List Char → Option (Option Int × List Char)
  | c :: rest =>
      if c == 'e' || c == 'E' then
        match rest with
        | '-' :: rest => (digits? rest).map fun (ds, rest) => (some (-exponentSize ds), rest)
        | '+' :: rest => (digits? rest).map fun (ds, rest) => (some (exponentSize ds), rest)
        | rest => (digits? rest).map fun (ds, rest) => (some (exponentSize ds), rest)
      else some (none, c :: rest)
  | [] => some (none, [])

/-- The value of a number from its parts.  A negative zero is a float also without a point, and a
number must be within the range of doubles, an integer of many digits as well. -/
def number? (negative : Bool) (whole fraction : List Char) (exponent : Option Int) :
    Option Json :=
  if fraction.isEmpty && exponent.isNone then
    let magnitude := ofDigits whole
    if !(Binary64.ofInt magnitude).isFinite then none
    else if negative then
      if magnitude = 0 then some (.float (.ofDecimal true 0 0)) else some (.int (-magnitude))
    else some (.int magnitude)
  else
    let value := Binary64.ofDecimal negative (ofDigits (whole ++ fraction))
      (exponent.getD 0 - fraction.length)
    if value.isFinite then some (.float value) else none

/-- A number behind its sign. -/
def unsignedNumber? (negative : Bool) (cs : List Char) : Option (Json × List Char) := do
  let (whole, rest) ← digits? cs
  if whole.length ≠ 1 ∧ whole.head? = some '0' then none
  else
    let (fraction, rest) ← fraction? rest
    let (exponent, rest) ← exponent? rest
    some (← number? negative whole fraction exponent, rest)

/-- The literal at the start of a text. -/
def literal? : List Char → Option (Json × List Char)
  | 't' :: 'r' :: 'u' :: 'e' :: rest => some (.bool true, rest)
  | 'f' :: 'a' :: 'l' :: 's' :: 'e' :: rest => some (.bool false, rest)
  | 'n' :: 'u' :: 'l' :: 'l' :: rest => some (.null, rest)
  | _ => none

def punctuation? (c : Char) : Option Token :=
  if c == '\x7b' then some .openBrace
  else if c == '\x7d' then some .closeBrace
  else if c == '[' then some .openBracket
  else if c == ']' then some .closeBracket
  else if c == ',' then some .comma
  else if c == ':' then some .colon
  else none

/-- The token at the start of a text without leading blanks. -/
def token? : List Char → Option (Token × List Char)
  | [] => none
  | c :: rest =>
      match punctuation? c with
      | some token => some (token, rest)
      | none =>
          if c == '"' then
            (stringBody? (rest.length + 1) [] rest).map fun (value, rest) => (.text value, rest)
          else if c == '-' then
            (unsignedNumber? true rest).map fun (value, rest) => (.scalar value, rest)
          else if c.isDigit then
            (unsignedNumber? false (c :: rest)).map fun (value, rest) => (.scalar value, rest)
          else (literal? (c :: rest)).map fun (value, rest) => (.scalar value, rest)

/-- The tokens of a text.  Every step takes a character, so the length of the text is fuel
enough. -/
def tokens? : (fuel : Nat) → List Char → Option (List Token)
  | _, [] => some []
  | 0, _ :: _ => none
  | fuel + 1, c :: rest =>
      if isBlank c then tokens? fuel rest
      else do
        let (token, rest) ← token? (c :: rest)
        return token :: (← tokens? fuel rest)

end RadioPacket.Json
