import ProcessFlow.Calendar.BusinessTime
import ProcessFlow.Timeline

/-! # Schedules

A schedule has one row for each milestone of each group, with its times placed on the wall clock.
-/

namespace ProcessFlow

/-- A milestone of a group on the wall clock. -/
structure ScheduleRow where
  group : GroupId
  milestone : MilestoneId
  start : Option DateTime
  finish : Option DateTime
deriving DecidableEq

namespace BusinessCalendar

def placeOption (calendar : BusinessCalendar) (start : Day) (cache : StepCache) :
    Option Binary64 → Except CalendarError (Option DateTime) × StepCache
  | none => (.ok none, cache)
  | some time =>
    let (placed, cache) := calendar.place cache start time
    (placed.map some, cache)

/-- The row of a milestone. Its start is placed before its end. -/
def scheduleRow (calendar : BusinessCalendar) (start : Day) (cache : StepCache) (group : GroupId)
    (milestone : MilestoneId) (item : TimelineItem) :
    Except CalendarError ScheduleRow × StepCache :=
  match calendar.placeOption start cache item.start with
  | (.error error, cache) => (.error error, cache)
  | (.ok first, cache) =>
    let (last, cache) := calendar.placeOption start cache item.finish
    (last.map (ScheduleRow.mk group milestone first), cache)

/-- The rows of milestones in order, or the error of the first time that has no place. -/
def scheduleItems (calendar : BusinessCalendar) (start : Day) (cache : StepCache) :
    List (GroupId × MilestoneId × TimelineItem) → Except CalendarError (List ScheduleRow)
  | [] => .ok []
  | (group, milestone, item) :: rest =>
    match calendar.scheduleRow start cache group milestone item with
    | (.error error, _) => .error error
    | (.ok row, cache) => (scheduleItems calendar start cache rest).map (row :: ·)

end BusinessCalendar

/-- The milestones of a timeline with their groups, in the order of the groups. -/
def Timeline.items (timeline : Timeline) : List (GroupId × MilestoneId × TimelineItem) :=
  timeline.entries.flatMap fun group => group.2.entries.map fun item => (group.1, item.1, item.2)

/-- The schedule of a timeline. Business time zero is the opening of the first business day on or
after the project start. -/
def BusinessCalendar.schedule (calendar : BusinessCalendar) (timeline : Timeline)
    (projectStart : Day) : Except CalendarError (List ScheduleRow) :=
  calendar.scheduleItems projectStart .empty timeline.items

end ProcessFlow
