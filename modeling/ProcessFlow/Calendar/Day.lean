import ProcessFlow.Text.Blank
import ProcessFlow.Text.Digits

/-! # Calendar days

Days are numbered from the first of January 1970. Their names follow the Gregorian calendar, carried
on in both directions without end of its own; a range of about 262000 years on either side of year
zero is representable, so there is a last day, which has no next one.
-/

namespace ProcessFlow

/-- A date by its name in the Gregorian calendar. -/
structure CivilDate where
  year : Int
  month : Nat
  day : Nat
deriving DecidableEq

namespace CivilDate

def isLeapYear (year : Int) : Bool := year % 4 = 0 && (year % 100 ≠ 0 || year % 400 = 0)

def daysInMonth (year : Int) (month : Nat) : Nat :=
  if month = 2 then if isLeapYear year then 29 else 28
  else if month = 4 || month = 6 || month = 9 || month = 11 then 30
  else 31

/-- Whether the calendar has a day of this name. -/
def isReal (date : CivilDate) : Bool :=
  1 ≤ date.month && date.month ≤ 12 && 1 ≤ date.day && date.day ≤ daysInMonth date.year date.month

/-- Days in four hundred years, after which the calendar repeats. -/
def daysPerEra : Int := 146097

/-- Days from the first of March of year zero to the first of January 1970. -/
def epochShift : Int := 719468

/-- The number of a date. Years are counted from March, so that a leap day ends its year. -/
def number (date : CivilDate) : Int :=
  let year := if date.month ≤ 2 then date.year - 1 else date.year
  let yearOfEra := year % 400
  let month := if date.month ≤ 2 then date.month + 9 else date.month - 3
  let dayOfYear : Int := (153 * month + 2) / 5 + date.day - 1
  year / 400 * daysPerEra + (yearOfEra * 365 + yearOfEra / 4 - yearOfEra / 100 + dayOfYear) -
    epochShift

def ofNumber (number : Int) : CivilDate :=
  let shifted := number + epochShift
  let dayOfEra := shifted % daysPerEra
  let yearOfEra := (dayOfEra - dayOfEra / 1460 + dayOfEra / 36524 - dayOfEra / 146096) / 365
  let dayOfYear := dayOfEra - (365 * yearOfEra + yearOfEra / 4 - yearOfEra / 100)
  let month := (5 * dayOfYear + 2) / 153
  let day := dayOfYear - (153 * month + 2) / 5 + 1
  let year := yearOfEra + shifted / daysPerEra * 400
  if month < 10 then ⟨year, (month + 3).toNat, day.toNat⟩
  else ⟨year + 1, (month - 9).toNat, day.toNat⟩

/-- The year with at least four digits; beyond four digits and before year zero it has a sign. -/
def yearChars (year : Int) : List Char :=
  let digits := decimal year.natAbs
  let padded := List.replicate (4 - digits.length) '0' ++ digits
  if year < 0 then '-' :: padded else if 9999 < year then '+' :: padded else padded

/-- The characters of a date, as in `2021-01-04`. -/
def chars (date : CivilDate) : List Char :=
  yearChars date.year ++ '-' :: fixedDigits 2 date.month ++ '-' :: fixedDigits 2 date.day

/-- A year: at most four digits, or a sign and any count of digits. -/
def takeYear? (text : List Char) : Option (Int × List Char) :=
  let unsigned := fun (cut : List Char × List Char) =>
    if cut.1.isEmpty then none else some (decimalValue cut.1, cut.2)
  match text with
  | '-' :: rest => (unsigned (spanDigits rest)).map fun (year, rest) => (-(year : Int), rest)
  | '+' :: rest => (unsigned (spanDigits rest)).map fun (year, rest) => ((year : Int), rest)
  | text => (unsigned (takeDigits 4 text)).map fun (year, rest) => ((year : Int), rest)

/-- A hyphen and a number of one or two digits, with blanks around the hyphen. -/
def takePart? (text : List Char) : Option (Nat × List Char) :=
  match skipBlank text with
  | '-' :: rest =>
    let (digits, rest) := takeDigits 2 (skipBlank rest)
    if digits.isEmpty then none else some (decimalValue digits, rest)
  | _ => none

/-- Read a date of the calendar, as `2021-01-04` or `2021-1-4`, with blanks before the numbers and
at the end. -/
def ofChars? (text : List Char) : Option CivilDate := do
  let (year, rest) ← takeYear? (skipBlank text)
  let (month, rest) ← takePart? rest
  let (day, rest) ← takePart? rest
  let date : CivilDate := ⟨year, month, day⟩
  if (skipBlank rest).isEmpty && date.isReal then some date else none

end CivilDate

/-- The number of the first representable day, the first of January of the year -262143. -/
def firstDayNumber : Int := -96465292

/-- The number of the last representable day, the last of December of the year 262142. -/
def lastDayNumber : Int := 95026236

/-- A representable day, by its number counted from the first of January 1970. -/
structure Day where
  number : Int
  first_le : firstDayNumber ≤ number
  le_last : number ≤ lastDayNumber
deriving DecidableEq

namespace Day

instance : LT Day := ⟨fun left right => left.number < right.number⟩

instance : LE Day := ⟨fun left right => left.number ≤ right.number⟩

instance : DecidableLT Day := fun left right =>
  inferInstanceAs (Decidable (left.number < right.number))

instance : DecidableLE Day := fun left right =>
  inferInstanceAs (Decidable (left.number ≤ right.number))

theorem lt_iff {left right : Day} : left < right ↔ left.number < right.number := Iff.rfl

theorem le_iff {left right : Day} : left ≤ right ↔ left.number ≤ right.number := Iff.rfl

@[ext] theorem ext {left right : Day} (same : left.number = right.number) : left = right := by
  cases left
  cases right
  cases same
  rfl

instance : Std.IsLinearOrder Day where
  le_refl _ := by simp only [le_iff]; omega
  le_trans _ _ _ := by simp only [le_iff]; omega
  le_antisymm _ _ := by simp only [le_iff]; intro _ _; ext; omega
  le_total _ _ := by simp only [le_iff]; omega

instance : Std.LawfulOrderLT Day where
  lt_iff _ _ := by simp only [le_iff, lt_iff]; omega

def ofNumber? (number : Int) : Option Day :=
  if range : firstDayNumber ≤ number ∧ number ≤ lastDayNumber then some ⟨number, range.1, range.2⟩
  else none

theorem ofNumber?_eq_some_iff {number : Int} {day : Day} :
    ofNumber? number = some day ↔ day.number = number := by
  unfold ofNumber?
  have := day.first_le
  have := day.le_last
  split
  · rw [Option.some.injEq, Day.ext_iff, eq_comm]
  · simp only [reduceCtorEq, false_iff]
    omega

/-- The day after, which every day but the last has. -/
def next? (day : Day) : Option Day := ofNumber? (day.number + 1)

theorem next?_eq_some_iff {day next : Day} :
    day.next? = some next ↔ next.number = day.number + 1 := ofNumber?_eq_some_iff

theorem next?_eq_none_iff {day : Day} : day.next? = none ↔ day.number = lastDayNumber := by
  unfold next? ofNumber?
  have := day.first_le
  have := day.le_last
  split
  · simp only [reduceCtorEq, false_iff]
    omega
  · simp only [true_iff]
    omega

def daysLeft (day : Day) : Nat := (lastDayNumber - day.number).toNat

theorem daysLeft_next {day next : Day} (step : day.next? = some next) :
    next.daysLeft < day.daysLeft := by
  have := next?_eq_some_iff.mp step
  have := next.le_last
  unfold daysLeft
  omega

def civil (day : Day) : CivilDate := .ofNumber day.number

def text (day : Day) : String := String.ofList day.civil.chars

def parse? (text : String) : Option Day :=
  (CivilDate.ofChars? text.toList).bind fun date => ofNumber? date.number

end Day

end ProcessFlow
