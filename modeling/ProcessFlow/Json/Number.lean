import ProcessFlow.Number.Binary64
import ProcessFlow.Text.Digits

/-! # Numbers of a JSON text

A number is read into a significand, which takes in digits as long as a word of 64 bits holds it,
and a power of ten. Digits that find no room only shift the power, before the point, or are lost,
after it. The double of a number is the double nearest to its significand, multiplied or divided by
the double of the power of ten, each rounded on its own, so it need not be the nearest to the
spelled number. A number too large for a double is refused.
-/

namespace ProcessFlow

/-- A number read so far: a significand that fits a word, and the power of ten that it counts. -/
structure DecimalReading where
  significand : Nat
  exponent : Int
deriving DecidableEq

namespace DecimalReading

/-- One more than the greatest significand. -/
def significandLimit : Nat := 1 <<< 64

/-- Take in digits from the front, as many as find room, and return the others. -/
def absorb : Nat → List Char → Nat × List Char
  | significand, [] => (significand, [])
  | significand, digit :: rest =>
    let grown := 10 * significand + digitValue digit
    if grown < significandLimit then absorb grown rest else (significand, digit :: rest)

/-- The digits before the point. Those without room count as zeros. -/
def ofWhole (digits : List Char) : DecimalReading :=
  let (significand, left) := absorb 0 digits
  ⟨significand, left.length⟩

/-- Add the digits after the point. Those without room are lost. -/
def addFraction (reading : DecimalReading) (digits : List Char) : DecimalReading :=
  let (significand, left) := absorb reading.significand digits
  ⟨significand, reading.exponent - (digits.length - left.length : Nat)⟩

/-- The greatest power of ten that is a finite double. -/
def greatestPower : Nat := 308

def powerOfTen (exponent : Nat) : Binary64 := .ofNat (Nat.pow 10 exponent)

/-- Divide by a power of ten, in steps of the greatest one where the power is larger. A number that
has become zero stays so. -/
def divideByPower (number : Binary64) (power : Nat) : Binary64 :=
  if number.isZero then number
  else if power ≤ greatestPower then number.div (powerOfTen power)
  else divideByPower (number.div (powerOfTen greatestPower)) (power - greatestPower)
termination_by power
decreasing_by
  unfold greatestPower at *
  omega

/-- Multiply by a power of ten, unless the result is too large. -/
def multiplyByPower? (number : Binary64) (power : Nat) : Option Binary64 :=
  if number.isZero then some number
  else if power ≤ greatestPower then
    let product := number.mul (powerOfTen power)
    if product.isInfinite then none else some product
  else none

def double? (reading : DecimalReading) : Option Binary64 :=
  let number := Binary64.ofNat reading.significand
  if 0 ≤ reading.exponent then multiplyByPower? number reading.exponent.toNat
  else some (divideByPower number (-reading.exponent).toNat)

end DecimalReading

/-- A number of a JSON text by the parts of its spelling. -/
structure JsonNumber where
  negative : Bool
  whole : List Char
  fraction : List Char
  /-- The sign and the digits of the exponent, if one is written. -/
  exponent : Option (Bool × List Char)
deriving DecidableEq

namespace JsonNumber

def splitExponent (power : List Char) : Bool × List Char :=
  match power with
  | '-' :: digits => (true, digits)
  | '+' :: digits => (false, digits)
  | digits => (false, digits)

/-- The parts of the spelling of a number. -/
def ofSpelling (spelling : List Char) : JsonNumber :=
  let negative := spelling.head? = some '-'
  let whole := spanDigits (if negative then spelling.drop 1 else spelling)
  let fraction := if whole.2.head? = some '.' then spanDigits (whole.2.drop 1) else ([], whole.2)
  ⟨negative, whole.1, fraction.1,
    if fraction.2.isEmpty then none else some (splitExponent (fraction.2.drop 1))⟩

/-- The sign that a number is written with. -/
def signed (number : JsonNumber) (size : Binary64) : Binary64 :=
  if number.negative then size.neg else size

/-- One more than the greatest exponent that is counted. -/
def exponentLimit : Nat := 2147483648

/-- The double of a number. An exponent beyond counting makes zero of a number if it is negative,
and is refused otherwise, unless the number is zero anyway. -/
def double? (number : JsonNumber) : Option Binary64 :=
  let reading := (DecimalReading.ofWhole number.whole).addFraction number.fraction
  match number.exponent with
  | none => reading.double?.map number.signed
  | some (negative, digits) =>
    let power := decimalValue digits
    if power < exponentLimit then
      (DecimalReading.mk reading.significand
        (if negative then reading.exponent - power else reading.exponent + power)).double?.map
        number.signed
    else if reading.significand = 0 || negative then some (number.signed (.ofNat 0))
    else none

/-- The natural number of a spelling without sign, point and exponent. -/
def natural? (number : JsonNumber) : Option Nat :=
  if number.negative || !number.fraction.isEmpty || number.exponent.isSome then none
  else some (decimalValue number.whole)

/-- The integer of a spelling without point and exponent. -/
def integer? (number : JsonNumber) : Option Int :=
  if !number.fraction.isEmpty || number.exponent.isSome then none
  else
    let size : Int := decimalValue number.whole
    some (if number.negative then -size else size)

end JsonNumber

end ProcessFlow
