import ProcessFlow.Calendar.Day
import ProcessFlow.Calendar.TimeOfDay

/-! # Moments on the wall clock -/

namespace ProcessFlow

structure DateTime where
  day : Day
  time : TimeOfDay
deriving DecidableEq

namespace DateTime

instance : LE DateTime where
  le left right := left.day < right.day ∨ left.day = right.day ∧ left.time ≤ right.time

instance : DecidableLE DateTime := fun left right =>
  inferInstanceAs (Decidable (left.day < right.day ∨
    left.day = right.day ∧ left.time ≤ right.time))

/-- The text of a moment, as `2021-01-04T09:00:00`. -/
def text (moment : DateTime) : String := moment.day.text ++ "T" ++ moment.time.text

/-- The day, hour and minute of a moment, as `2021-01-04 09:00`. -/
def minuteText (moment : DateTime) : String := moment.day.text ++ " " ++ moment.time.minuteText

end DateTime

end ProcessFlow
