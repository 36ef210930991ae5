import RadioPacket.Json.Token

/-!
# Reading JSON

The structure of a JSON text is read from its tokens by recursive descent.  Every call of a reader
on an element takes a token before the next one, so twice the number of tokens bounds the depth of
calls.
-/

namespace RadioPacket.Json

mutual

/-- A value at the start of some tokens. -/
def value? : (fuel : Nat) → List Token → Option (Json × List Token)
  | 0, _ => none
  | _, .text value :: rest => some (.string value, rest)
  | _, .scalar value :: rest => some (value, rest)
  | _, .openBracket :: .closeBracket :: rest => some (.array [], rest)
  | fuel + 1, .openBracket :: rest => do
      let (elements, rest) ← elements? fuel rest
      some (.array elements, rest)
  | _, .openBrace :: .closeBrace :: rest => some (.object [], rest)
  | fuel + 1, .openBrace :: rest => do
      let (members, rest) ← members? fuel [] rest
      some (.object members, rest)
  | _, _ => none

/-- The elements of an array, up to its closing bracket. -/
def elements? : (fuel : Nat) → List Token → Option (List Json × List Token)
  | 0, _ => none
  | fuel + 1, tokens => do
      let (element, rest) ← value? fuel tokens
      match rest with
      | .closeBracket :: rest => some ([element], rest)
      | .comma :: rest => do
          let (elements, rest) ← elements? fuel rest
          some (element :: elements, rest)
      | _ => none

/-- The members of an object, up to its closing brace, `seen` holding those before. -/
def members? : (fuel : Nat) → (seen : List (String × Json)) → List Token →
    Option (List (String × Json) × List Token)
  | fuel + 1, seen, .text name :: .colon :: tokens => do
      let (value, rest) ← value? fuel tokens
      let members := addMember seen name value
      match rest with
      | .closeBrace :: rest => some (members, rest)
      | .comma :: rest => members? fuel members rest
      | _ => none
  | _, _, _ => none

end

/-- The value that a text stands for. -/
def parse? (text : String) : Option Json := do
  let chars := text.toList
  let tokens ← tokens? chars.length chars
  match ← value? (2 * tokens.length + 2) tokens with
  | (value, []) => some value
  | _ => none

end RadioPacket.Json
