import ProcessFlow.Calendar.TimeOfDay
import ProcessFlow.Calendar.Weekday
import ProcessFlow.Collection.OrderedSet

/-! # Business days and business hours

A business calendar says of each day whether it is a business day, and between which times of day
business is done. A work calendar is the usual one: a weekly pattern with the same hours on every
day, less a list of holidays.
-/

namespace ProcessFlow

structure BusinessHours where
  opening : TimeOfDay
  closing : TimeOfDay
deriving DecidableEq

namespace BusinessHours

/-- The length of a business day, which is not positive if the hours are empty or inverted. -/
def length (hours : BusinessHours) : Duration := hours.closing.since hours.opening

def text (hours : BusinessHours) : String := hours.opening.text ++ "-" ++ hours.closing.text

end BusinessHours

structure BusinessCalendar where
  isBusinessDay : Day → Bool
  hours : Day → BusinessHours

/-- A weekly pattern with fixed hours and holidays. -/
structure WorkCalendar where
  hours : BusinessHours
  workdays : List Weekday
  holidays : OrderedSet Day

namespace WorkCalendar

/-- From nine to five, Monday to Friday, without holidays. -/
def standard : WorkCalendar where
  hours :=
    ⟨(TimeOfDay.ofHms? 9 0 0).getD .midnight, (TimeOfDay.ofHms? 17 0 0).getD .midnight⟩
  workdays := [.monday, .tuesday, .wednesday, .thursday, .friday]
  holidays := ∅

instance : Inhabited WorkCalendar := ⟨standard⟩

/-- A workday of the week that is no holiday. -/
def isBusinessDay (calendar : WorkCalendar) (day : Day) : Bool :=
  calendar.workdays.contains day.weekday && day ∉ calendar.holidays

def toBusiness (calendar : WorkCalendar) : BusinessCalendar :=
  ⟨calendar.isBusinessDay, fun _ => calendar.hours⟩

end WorkCalendar

end ProcessFlow
