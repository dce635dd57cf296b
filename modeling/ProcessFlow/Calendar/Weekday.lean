import ProcessFlow.Calendar.Day

/-! # Days of the week -/

namespace ProcessFlow

inductive Weekday where
  | monday
  | tuesday
  | wednesday
  | thursday
  | friday
  | saturday
  | sunday
deriving DecidableEq, Inhabited

namespace Weekday

def week : List Weekday := [.monday, .tuesday, .wednesday, .thursday, .friday, .saturday, .sunday]

/-- The full name in small letters. -/
def name : Weekday → String
  | .monday => "monday"
  | .tuesday => "tuesday"
  | .wednesday => "wednesday"
  | .thursday => "thursday"
  | .friday => "friday"
  | .saturday => "saturday"
  | .sunday => "sunday"

/-- The three letters by which a weekday is written. -/
def text : Weekday → String
  | .monday => "Mon"
  | .tuesday => "Tue"
  | .wednesday => "Wed"
  | .thursday => "Thu"
  | .friday => "Fri"
  | .saturday => "Sat"
  | .sunday => "Sun"

/-- Read the three letters or the full name of a weekday, in letters of any case. -/
def parse? (text : String) : Option Weekday :=
  let letters := text.toList.map Char.toLower
  week.find? fun weekday => letters = weekday.name.toList || letters = weekday.name.toList.take 3

def ofDayNumber (number : Int) : Weekday :=
  match ((number + 3) % 7).toNat with
  | 0 => .monday
  | 1 => .tuesday
  | 2 => .wednesday
  | 3 => .thursday
  | 4 => .friday
  | 5 => .saturday
  | _ => .sunday

/-- Two day numbers have the same weekday exactly if they are whole weeks apart. -/
theorem ofDayNumber_eq_iff {first second : Int} :
    ofDayNumber first = ofDayNumber second ↔ first % 7 = second % 7 := by
  have apart : ∀ left < 7, ∀ right < 7, (ofDayNumber (left : Nat) = ofDayNumber (right : Nat) ↔
      left = right) := by decide
  have shifted (number : Int) :
      ofDayNumber number = ofDayNumber (number % 7).toNat := by
    unfold ofDayNumber
    rw [show ((number % 7).toNat + 3 : Int) % 7 = (number + 3) % 7 by omega]
  rw [shifted first, shifted second, apart _ (by omega) _ (by omega)]
  omega

end Weekday

def Day.weekday (day : Day) : Weekday := .ofDayNumber day.number

end ProcessFlow
