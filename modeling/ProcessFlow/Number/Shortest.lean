import ProcessFlow.Number.Binary64

/-! # Shortest decimal text of a double

A finite double other than zero is the nearest double to every value of an interval around it. Its
shortest digits are those of a multiple of the largest power of ten that has a multiple in this
interval; of two such multiples the nearer one is meant. How the digits are laid out, and where an
exact tie goes, belongs to the format of the output.
-/

namespace ProcessFlow

/-- A decimal number: whole digits and the power of ten that they count. -/
structure Digits where
  value : Nat
  exponent : Int
deriving DecidableEq

namespace Digits

def count (digits : Digits) : Nat := (Nat.toDigits 10 digits.value).length

/-- The multiple of a power of ten nearest to a magnitude, if it rounds to the magnitude. All
lengths are measured in halves of the smallest positive double times `scale`. -/
def onGrid? (tieUp : Bool) (magnitude : Nat) (exponent : Int) : Option Digits :=
  let half := 2 * Binary64.unitsPerOne
  let step := half * Nat.pow 10 exponent.toNat
  let scale := Nat.pow 10 (-exponent).toNat
  let value := 2 * Binary64.unitsOf magnitude * scale
  let low := (Binary64.unitsOf (magnitude - 1) + Binary64.unitsOf magnitude) * scale
  let high := (Binary64.unitsOf magnitude + Binary64.unitsOf (magnitude + 1)) * scale
  let inside := fun point =>
    if magnitude % 2 = 0 then low ≤ point ∧ point ≤ high else low < point ∧ point < high
  let below := value / step
  let above := below + 1
  let lowHit := decide (inside (below * step))
  let highHit := decide (inside (above * step))
  let downwards := value - below * step
  let upwards := above * step - value
  let nearBelow := downwards < upwards ∨ downwards = upwards ∧ !tieUp ∧ below % 2 = 0
  if lowHit && (!highHit || nearBelow) then some ⟨below, exponent⟩
  else if highHit then some ⟨above, exponent⟩
  else none

/-- The shortest digits of a finite magnitude other than zero. The search for the power of ten goes
down from the number of digits before the point. -/
def shortest (tieUp : Bool) (magnitude : Nat) : Digits :=
  let top := (Nat.toDigits 10 (Binary64.unitsOf magnitude / Binary64.unitsPerOne)).length
  ((List.range 400).findSome? fun (drop : Nat) =>
    onGrid? tieUp magnitude ((top : Int) - (drop : Int))).getD ⟨0, 0⟩

end Digits

/-- How doubles are written: where a tie between two shortest forms goes, the powers of ten between
which the point stands within the digits or next to them, and the texts at the edges. -/
structure NumberLayout where
  /-- Of two nearest shortest forms, take the upper one rather than the even one. -/
  tieUp : Bool
  /-- The least and the greatest power of ten of a first digit that needs no exponent. -/
  positional : Int → Bool
  /-- What follows a whole number. -/
  wholeSuffix : String
  /-- The texts of a word that is no number, and of infinity with a sign. -/
  special : Option Bool → String

namespace NumberLayout

/-- Digits with the point in its place. -/
def positionalText (layout : NumberLayout) (digits : List Char) (exponent : Int) : String :=
  if 0 ≤ exponent then
    String.ofList (digits ++ List.replicate exponent.toNat '0') ++ layout.wholeSuffix
  else
    let places := (-exponent).toNat
    let padded := List.replicate (places + 1 - digits.length) '0' ++ digits
    let point := padded.length - places
    String.ofList (padded.take point ++ '.' :: padded.drop point)

/-- Digits with the point after the first of them, and an exponent with its sign. -/
def scientificText (digits : List Char) (exponent : Int) : String :=
  let lead := exponent + digits.length - 1
  let mantissa := match digits with
    | [] => []
    | [digit] => [digit]
    | digit :: rest => digit :: '.' :: rest
  String.ofList mantissa ++ (if lead < 0 then "e-" else "e+") ++ toString lead.natAbs

def text (layout : NumberLayout) (number : Binary64) : String :=
  if number.isNaN then layout.special none
  else if number.isInfinite then layout.special (some number.negative)
  else
    let sign := if number.negative then "-" else ""
    if number.isZero then sign ++ "0" ++ layout.wholeSuffix
    else
      let digits := Digits.shortest layout.tieUp number.magnitude
      let characters := Nat.toDigits 10 digits.value
      let lead := digits.exponent + characters.length - 1
      sign ++ if layout.positional lead then layout.positionalText characters digits.exponent
        else scientificText characters digits.exponent

/-- Numbers in messages and tables are written without exponent, and whole numbers without
point. -/
def plain : NumberLayout where
  tieUp := true
  positional _ := true
  wholeSuffix := ""
  special
    | none => "NaN"
    | some false => "inf"
    | some true => "-inf"

/-- Numbers in JSON have a point or an exponent; the point stands among the digits from `1e-5` up to
below `1e16`. What is not finite has no number in JSON. -/
def json : NumberLayout where
  tieUp := false
  positional lead := -5 ≤ lead && lead < 16
  wholeSuffix := ".0"
  special _ := "null"

end NumberLayout

def Binary64.text (number : Binary64) : String := NumberLayout.plain.text number

end ProcessFlow
