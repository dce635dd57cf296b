/-! # Double-precision numbers

A number of the format binary64 is a sign and a word of 63 bits, its magnitude. Magnitudes in
ascending order are the finite values from zero up, then infinity, then the words that are not a
number. Every finite value is a whole multiple of the smallest one, `2 ^ -1074`, so arithmetic is
exact on natural numbers until a result is rounded to the nearest double.
-/

namespace ProcessFlow

/-- The weight of the sign in the word of a double. -/
def signWeight : Nat := 1 <<< 63

/-- How many magnitudes lie between a power of two and the next. -/
def binadeSize : Nat := 1 <<< 52

/-- A double-precision number, by its sign and the other 63 bits of its word. -/
structure Binary64 where
  negative : Bool
  magnitude : Nat
  magnitude_lt : magnitude < signWeight
deriving DecidableEq

namespace Binary64

def infinityMagnitude : Nat := 2047 * binadeSize

/-- How many of the smallest positive values make one. -/
def unitsPerOne : Nat := 1 <<< 1074

/-- The value of a finite magnitude, in multiples of the smallest positive value. -/
def unitsOf (magnitude : Nat) : Nat :=
  if magnitude < binadeSize then magnitude
  else (binadeSize + magnitude % binadeSize) <<< (magnitude / binadeSize - 1)

/-- A quotient rounded to the nearest whole number, a half to the even one. -/
def roundDiv (numerator denominator : Nat) : Nat :=
  let quotient := numerator / denominator
  let twice := 2 * (numerator % denominator)
  if denominator < twice ∨ denominator = twice ∧ quotient % 2 = 1 then quotient + 1 else quotient

/-- The magnitude nearest to a quotient, a half going to the even one. The quotient is measured in
steps that leave it at most 53 bits; a value too large for the format is infinity. -/
def nearestMagnitude (numerator denominator : Nat) : Nat :=
  let units := numerator * unitsPerOne
  let shift := (units / denominator).log2 - 52
  min (shift * binadeSize + roundDiv units (denominator <<< shift)) infinityMagnitude

theorem nearestMagnitude_lt (numerator denominator : Nat) :
    nearestMagnitude numerator denominator < signWeight :=
  Nat.lt_of_le_of_lt (Nat.min_le_right ..) (by decide)

/-- The double nearest to a quotient. -/
def ofRatio (negative : Bool) (numerator denominator : Nat) : Binary64 :=
  ⟨negative, nearestMagnitude numerator denominator, nearestMagnitude_lt ..⟩

def ofNat (value : Nat) : Binary64 := ofRatio false value 1

def ofInt (value : Int) : Binary64 := ofRatio (value < 0) value.natAbs 1

instance : Inhabited Binary64 := ⟨ofNat 0⟩

def ofBits (bits : UInt64) : Binary64 :=
  ⟨signWeight ≤ bits.toNat, bits.toNat % signWeight, Nat.mod_lt _ (by decide)⟩

def toBits (number : Binary64) : UInt64 :=
  .ofNat ((if number.negative then signWeight else 0) + number.magnitude)

/-- The positive word that is no number. -/
def notANumber : Binary64 := ⟨false, infinityMagnitude + binadeSize / 2, by decide⟩

def infinity (negative : Bool) : Binary64 := ⟨negative, infinityMagnitude, by decide⟩

def isNaN (number : Binary64) : Bool := infinityMagnitude < number.magnitude

def isInfinite (number : Binary64) : Bool := number.magnitude = infinityMagnitude

def isFinite (number : Binary64) : Bool := number.magnitude < infinityMagnitude

def isZero (number : Binary64) : Bool := number.magnitude = 0

def neg (number : Binary64) : Binary64 := { number with negative := !number.negative }

/-- A position on the line of values; the two zeros share theirs. -/
def rank (number : Binary64) : Int :=
  if number.negative then -(number.magnitude : Int) else number.magnitude

/-- Numeric comparison, which holds of no word that is not a number. -/
def less (left right : Binary64) : Bool := !left.isNaN && !right.isNaN && left.rank < right.rank

def atLeast (left right : Binary64) : Bool :=
  !left.isNaN && !right.isNaN && decide (right.rank ≤ left.rank)

/-- The lesser of two numbers, the second of equals, and of a number and a word that is none the
number. Zeros of both signs are equals. -/
def least (left right : Binary64) : Binary64 :=
  if right.isNaN || left.less right then left else right

/-- The size of a finite number, in multiples of the smallest positive value. -/
def units (number : Binary64) : Nat := unitsOf number.magnitude

def mul (left right : Binary64) : Binary64 :=
  let negative := left.negative != right.negative
  if left.isNaN || right.isNaN then notANumber
  else if left.isInfinite || right.isInfinite then
    if left.isZero || right.isZero then notANumber else infinity negative
  else ofRatio negative (left.units * right.units) (unitsPerOne * unitsPerOne)

def div (left right : Binary64) : Binary64 :=
  let negative := left.negative != right.negative
  if left.isNaN || right.isNaN || left.isInfinite && right.isInfinite ||
      left.isZero && right.isZero then notANumber
  else if left.isInfinite || right.isZero then infinity negative
  else if right.isInfinite then ⟨negative, 0, by decide⟩
  else ofRatio negative left.units right.units

/-- The whole part of a finite number that is not negative. -/
def wholePart (number : Binary64) : Nat := number.units / unitsPerOne

/-- What a finite number that is not negative has beyond its whole part, in multiples of the
smallest positive value. It is a double itself, so splitting it off rounds nothing. -/
def fractionUnits (number : Binary64) : Nat := number.units % unitsPerOne

/-- The whole part of the double nearest to the product of a length with the fractional part of a
number. -/
def shareOf (number : Binary64) (length : Nat) : Nat :=
  unitsOf (nearestMagnitude (length * number.fractionUnits) unitsPerOne) / unitsPerOne

end Binary64

end ProcessFlow
