/-!
# Double-precision binary numbers

A number of this format is a sign and a 63-bit magnitude pattern: eleven bits of exponent above 52
bits of fraction.  Patterns order as the numbers they stand for, so comparisons work on patterns.
Every finite magnitude is a whole multiple of `2 ^ -1074`; that multiple is its number of *units*,
and all conversions are stated with it in exact arithmetic.  Rounding to nearest with ties to even
happens in one place, `nearestMagnitude`.
-/

-- A power of numbers is the same term whatever else is imported.
attribute [instance (1100), default_instance 20000] instPowNat

namespace RadioPacket

/-- A double-precision number, held as its sign and the pattern of its magnitude. -/
structure Binary64 where
  negative : Bool
  magnitude : Nat
  magnitude_lt : magnitude < 2 ^ 63
  deriving DecidableEq

namespace Binary64

/-- Weight of the lowest exponent bit in a magnitude pattern. -/
def fractionSpan : Nat := 2 ^ 52

/-- The magnitude pattern of infinity; finite patterns are below it and NaN patterns above. -/
def infinityMagnitude : Nat := 2047 * 2 ^ 52

/-- Units in the number one. -/
def unitsPerOne : Nat := 2 ^ 1074

/-- The number whose 64-bit pattern is `pattern`, taken modulo `2 ^ 64`. -/
def ofBits (pattern : Nat) : Binary64 where
  negative := pattern / 2 ^ 63 % 2 == 1
  magnitude := pattern % 2 ^ 63
  magnitude_lt := Nat.mod_lt _ (by decide)

def toBits (x : Binary64) : Nat := x.negative.toNat * 2 ^ 63 + x.magnitude

theorem ofBits_toBits (x : Binary64) : ofBits x.toBits = x := by
  obtain ⟨negative, magnitude, h⟩ := x
  cases negative <;> simp [ofBits, toBits] <;> omega

def isNaN (x : Binary64) : Bool := decide (infinityMagnitude < x.magnitude)

def isFinite (x : Binary64) : Bool := decide (x.magnitude < infinityMagnitude)

/-- Position of a finite number among all of them; both zeros stand at 0. -/
def rank (x : Binary64) : Int := if x.negative then -x.magnitude else x.magnitude

/-- Numeric comparison; it fails when either side is NaN. -/
def le (x y : Binary64) : Bool :=
  !x.isNaN && !y.isNaN && decide (x.rank ≤ y.rank)

/-- Numeric equality: the two zeros agree and NaN differs from everything. -/
def sameNumber (x y : Binary64) : Bool :=
  !x.isNaN && !y.isNaN && x.rank == y.rank

/-- The exponent of a magnitude's last place, counted in units. -/
def placeExponent (magnitude : Nat) : Nat := magnitude / fractionSpan - 1

/-- The significand of a magnitude pattern, with the leading one of a normal number. -/
def significand (magnitude : Nat) : Nat :=
  magnitude % fractionSpan + if magnitude < fractionSpan then 0 else fractionSpan

/-- The units in a finite magnitude. -/
def units (magnitude : Nat) : Nat := significand magnitude * 2 ^ placeExponent magnitude

/-- The exact value of a finite number in units. -/
def toUnits (x : Binary64) : Int := if x.negative then -units x.magnitude else units x.magnitude

/-- The quotient rounded to the nearest whole number, a half to the even neighbour. -/
def divNearestEven (numerator denominator : Nat) : Nat :=
  let quotient := numerator / denominator
  let twice := 2 * (numerator % denominator)
  if twice < denominator then quotient
  else if denominator < twice then quotient + 1
  else quotient + quotient % 2

/-- The magnitude pattern nearest to `numerator / denominator` units, ties to even.  The place
exponent is chosen so that the significand has 53 bits or the pattern is subnormal; adding the
significand to the shifted exponent also carries correctly when rounding reaches the next power
of two. -/
def nearestMagnitude (numerator denominator : Nat) : Nat :=
  let exponent := Nat.log2 (numerator / denominator) - 52
  let rounded := divNearestEven numerator (denominator * 2 ^ exponent)
  min (exponent * fractionSpan + rounded) infinityMagnitude

/-- The number nearest to `numerator / denominator`, with the given sign. -/
def ofRatio (negative : Bool) (numerator denominator : Nat) : Binary64 where
  negative := negative
  magnitude := nearestMagnitude (numerator * unitsPerOne) denominator
  magnitude_lt := Nat.lt_of_le_of_lt (Nat.min_le_right _ _) (by decide)

/-- The number nearest to `value / 2 ^ radix`; zero is positive. -/
def ofScaled (value : Int) (radix : Nat) : Binary64 :=
  ofRatio (decide (value < 0)) value.natAbs (2 ^ radix)

def ofInt (value : Int) : Binary64 := ofScaled value 0

def zero : Binary64 := ⟨false, 0, by decide⟩

def one : Binary64 := ofInt 1

/-- The number `digits * 10 ^ exponent`, rounded to nearest, as a decimal literal means it. -/
def ofDecimal (negative : Bool) (digits : Nat) (exponent : Int) : Binary64 :=
  if exponent < 0 then ofRatio negative digits (10 ^ exponent.natAbs)
  else ofRatio negative (digits * 10 ^ exponent.natAbs) 1

/-- The exact product `x * 2 ^ radix` rounded to the nearest whole number, a half away from zero.
NaN counts as zero, and infinity as a number above every finite one. -/
def roundScaled (x : Binary64) (radix : Nat) : Int :=
  if x.isNaN then 0
  else
    let scaled := units x.magnitude * 2 ^ radix
    let rounded := (2 * scaled + unitsPerOne) / (2 * unitsPerOne)
    if x.negative then -rounded else rounded

end Binary64

end RadioPacket
