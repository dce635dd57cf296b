import ProcessFlow.Calendar.BusinessCalendar
import ProcessFlow.Calendar.BusinessDay
import ProcessFlow.Calendar.DateTime
import ProcessFlow.Calendar.StepCache
import ProcessFlow.Number.Shortest

/-! # Business time on the wall clock

Business time is a number that is not negative, in which one is a full business day. Its whole part
counts business days after the first business day on or after a start; its fractional part is a
share of the opening hours of the day so reached. A share is cut to whole nanoseconds and always
stays before closing time.
-/

namespace ProcessFlow

/-- Why a business time has no place on the wall clock. -/
inductive CalendarError where
  /-- The time after opening lies on another day. -/
  | crossesMidnight (time : TimeOfDay) (length : Duration)
  /-- The day closes when it opens, or before. -/
  | nonPositiveBusinessDay (day : Day) (hours : BusinessHours)
  /-- The number is negative, too large, or none at all. -/
  | invalidBusinessTime (time : Binary64)
  /-- There are too few business days before the last representable day. -/
  | pastLastDay
deriving DecidableEq

def CalendarError.message : CalendarError → String
  | .crossesMidnight time length =>
    "Adding " ++ length.text ++ " to " ++ time.text ++ " crosses a day boundary"
  | .nonPositiveBusinessDay day hours =>
    "Business hours on " ++ day.text ++ " are empty or inverted: " ++ hours.text
  | .invalidBusinessTime time =>
    "Business time must be a finite non-negative number, got " ++ time.text
  | .pastLastDay => "business day search ran past the last representable date"

/-- The least whole number of days that is too large for a business time. -/
def businessTimeLimit : Nat := 4294967295

def isBusinessTime (time : Binary64) : Bool :=
  time.isFinite && 0 ≤ time.rank && time.less (.ofNat businessTimeLimit)

/-- The time of day at a share of a business day's length after an opening time. The share stays
below the length. -/
def shareAfter (opening : TimeOfDay) (length : Nat) (time : Binary64) :
    Except CalendarError TimeOfDay :=
  let offset : Duration := ⟨min (time.shareOf length) (length - 1)⟩
  match opening.add? offset with
  | some reached => .ok reached
  | none => .error (.crossesMidnight opening offset)

namespace BusinessCalendar

def step (calendar : BusinessCalendar) : Day → Nat → Option Day :=
  addBusinessDays? calendar.isBusinessDay

/-- The moment of a business time after a start. The steps over business days are remembered in
the cache, also where the result is an error. -/
def place (calendar : BusinessCalendar) (cache : StepCache) (start : Day) (time : Binary64) :
    Except CalendarError DateTime × StepCache :=
  if !isBusinessTime time then (.error (.invalidBusinessTime time), cache)
  else
    match cache.get calendar.step start 0 with
    | (none, cache) => (.error .pastLastDay, cache)
    | (some anchor, cache) =>
      let hours := calendar.hours anchor
      let length := hours.length.nanoseconds
      if length ≤ 0 then (.error (.nonPositiveBusinessDay anchor hours), cache)
      else
        let landed :=
          if time.wholePart = 0 then (some anchor, cache)
          else cache.get calendar.step anchor time.wholePart
        match landed with
        | (none, cache) => (.error .pastLastDay, cache)
        | (some day, cache) =>
          ((shareAfter (calendar.hours day).opening length.toNat time).map (DateTime.mk day), cache)

end BusinessCalendar

end ProcessFlow
