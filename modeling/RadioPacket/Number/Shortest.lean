import RadioPacket.Number.Binary64

/-!
# Shortest decimal text of a double

The text of a finite number has the fewest digits that read back as the same number, and among
those the nearest; of two equally near ones the larger is taken.  It is positional: no exponent is
ever written, and a whole number has no point.

The search walks the grids of multiples of `10 ^ k` from the coarsest one down.  A number's
*basin* is the set of reals that round to it, its ends included when the significand is even.  If
a grid has a point in the basin, then one of the number's two neighbours on the grid is such a
point, so two tests settle each grid.
-/

namespace RadioPacket

/-- A positive decimal `digits * 10 ^ exponent`. -/
structure Decimal where
  digits : Nat
  exponent : Int
  deriving DecidableEq

namespace Decimal

/-- Positional text: zeros fill the places up to the point. -/
def text (d : Decimal) : String :=
  let digits := Nat.toDigits 10 d.digits
  match d.exponent with
  | .ofNat zeros => String.ofList (digits ++ List.replicate zeros '0')
  | .negSucc n =>
      let places := n + 1
      let padded := List.replicate (places + 1 - digits.length) '0' ++ digits
      let whole := padded.length - places
      String.ofList (padded.take whole ++ '.' :: padded.drop whole)

end Decimal

namespace Binary64

/-- The reals that round to a magnitude, as a centre and two ends in quarter units. -/
structure Basin where
  low : Nat
  centre : Nat
  high : Nat
  /-- The ends belong to the basin. -/
  closed : Bool

/-- The basin of a positive finite magnitude.  Below a power of two the numbers stand twice as
close, so there the lower end is nearer. -/
def basin (magnitude : Nat) : Basin :=
  let place := 2 ^ placeExponent magnitude
  let centre := 4 * units magnitude
  let narrow := significand magnitude == fractionSpan && decide (2 * fractionSpan ≤ magnitude)
  { low := centre - (if narrow then place else 2 * place)
    centre
    high := centre + 2 * place
    closed := significand magnitude % 2 == 0 }

/-- The nearest point of the grid `10 ^ exponent` inside the basin, if there is one. -/
def Basin.gridPoint? (b : Basin) (exponent : Int) : Option Nat :=
  let one := 4 * unitsPerOne
  let (factor, step) : Nat × Nat :=
    if exponent < 0 then (10 ^ exponent.natAbs, one) else (1, one * 10 ^ exponent.natAbs)
  let centre := b.centre * factor
  let low := b.low * factor
  let high := b.high * factor
  let below := centre / step
  let above := below + 1
  let belowInside := decide (low < below * step) || (b.closed && low == below * step)
  let aboveInside := decide (above * step < high) || (b.closed && high == above * step)
  match belowInside, aboveInside with
  | true, true => if centre - below * step < above * step - centre then some below else some above
  | true, false => some below
  | false, true => some above
  | false, false => none

/-- Walks `fuel` grids from `10 ^ exponent` down and takes the first point found. -/
def Basin.coarsestPoint (b : Basin) (exponent : Int) : (fuel : Nat) → Decimal
  | 0 => ⟨0, 0⟩
  | fuel + 1 =>
    match b.gridPoint? exponent with
    | some digits => ⟨digits, exponent⟩
    | none => b.coarsestPoint (exponent - 1) fuel

/-- The shortest decimal of a positive finite magnitude.  No double reaches `10 ^ 309`, and each is
a multiple of `10 ^ -1074`, so the walk covers every grid that can matter. -/
def shortest (magnitude : Nat) : Decimal :=
  (basin magnitude).coarsestPoint 309 1384

def text (x : Binary64) : String :=
  if x.isNaN then "NaN"
  else
    let sign := if x.negative then "-" else ""
    if !x.isFinite then sign ++ "inf"
    else if x.magnitude = 0 then sign ++ "0"
    else sign ++ (shortest x.magnitude).text

end Binary64

end RadioPacket
