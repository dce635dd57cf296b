import ProcessFlow.Calendar.Day

/-! # Counting business days

The business days from a day on are counted from zero, so that a day which is no business day is
first moved to the next one. There may be too few of them before the last representable day.
-/

namespace ProcessFlow

/-- The business day with `count` business days before it, counted from `day` on. -/
def addBusinessDays? (isBusinessDay : Day → Bool) (day : Day) (count : Nat) : Option Day :=
  if isBusinessDay day && count = 0 then some day
  else
    match step : day.next? with
    | none => none
    | some next =>
      addBusinessDays? isBusinessDay next (if isBusinessDay day then count - 1 else count)
termination_by day.daysLeft
decreasing_by exact Day.daysLeft_next step

end ProcessFlow
