import ProcessFlow.Proofs.Calendar.DaySearch
import ProcessFlow.Proofs.Calendar.History
import ProcessFlow.Proofs.Schedule

/-! # Schedules after any history

A schedule is made with a calendar that may remember steps from before. Its rows are those of a
calendar that remembers nothing: one for each milestone of each group, in the order of the groups and
of the milestones within a group. Where a time has no place, there is the error of the first such time
instead, where the start of a milestone comes before its end.
-/

namespace ProcessFlow

/-- The times of an item that are set, the start before the end. -/
def TimelineItem.times (item : TimelineItem) : List Binary64 := item.start.toList ++ item.finish.toList

namespace Timeline

/-- The times that are set, in the order of the items. -/
def times (timeline : Timeline) : List Binary64 := timeline.items.flatMap fun entry => entry.2.2.times

/-- The items ascend by their groups, and within a group by their milestones. -/
theorem pairwise_items (timeline : Timeline) : timeline.items.Pairwise fun earlier later =>
    earlier.1 < later.1 ∨ earlier.1 = later.1 ∧ earlier.2.1 < later.2.1 := by
  rw [items, List.pairwise_flatMap]
  constructor
  · intro entry _
    rw [List.pairwise_map]
    exact entry.2.ascending.imp fun less => .inr ⟨rfl, less⟩
  · refine timeline.ascending.imp fun less entry isEntry other isOther => .inl ?_
    obtain ⟨_, _, rfl⟩ := List.mem_map.mp isEntry
    obtain ⟨_, _, rfl⟩ := List.mem_map.mp isOther
    exact less

end Timeline

namespace BusinessCalendar

variable {calendar : BusinessCalendar} {cache : StepCache} {start : Day} {timeline : Timeline}

/-- The moment of a business time for a calendar that remembers nothing. -/
def placeFresh (calendar : BusinessCalendar) (start : Day) (time : Binary64) :
    Except CalendarError DateTime :=
  (calendar.place .empty start time).1

theorem momentOf_eq_placeFresh : calendar.momentOf start = calendar.placeFresh start :=
  funext fun time => ((remembers_empty calendar).place start time).1.symm

/-- A row has the group and the milestone of an item, with each time that is set placed by a calendar
that remembers nothing, and each other time unset. -/
structure FreshRowOf (calendar : BusinessCalendar) (start : Day)
    (entry : GroupId × MilestoneId × TimelineItem) (row : ScheduleRow) : Prop where
  group : row.group = entry.1
  milestone : row.milestone = entry.2.1
  begins : Option.Rel (fun time moment => calendar.placeFresh start time = .ok moment)
    entry.2.2.start row.start
  ends : Option.Rel (fun time moment => calendar.placeFresh start time = .ok moment)
    entry.2.2.finish row.finish

theorem freshRowOf_eq : calendar.FreshRowOf start = calendar.RowOf start := by
  have places : (fun time moment => calendar.placeFresh start time = .ok moment) =
      calendar.PlacesAt start := by
    funext time moment
    rw [← momentOf_eq_placeFresh, momentOf_eq_ok_iff, PlacesAt]
  funext entry row
  rw [eq_iff_iff]
  constructor
  · rintro ⟨group, milestone, begins, ends⟩
    exact ⟨group, milestone, places ▸ begins, places ▸ ends⟩
  · rintro ⟨group, milestone, begins, ends⟩
    exact ⟨group, milestone, places ▸ begins, places ▸ ends⟩

theorem failure?_optionMomentOf (calendar : BusinessCalendar) (start : Day) (time : Option Binary64) :
    failure? (calendar.optionMomentOf start time) =
      time.toList.findSome? fun time => failure? (calendar.momentOf start time) := by
  cases time with
  | none => rfl
  | some time =>
    rw [optionMomentOf, failure?_map, Option.toList_some, List.findSome?_singleton]

/-- A row fails as its start does, or else as its end. -/
theorem failure?_rowFor (calendar : BusinessCalendar) (start : Day)
    (entry : GroupId × MilestoneId × TimelineItem) : failure? (calendar.rowFor start entry) =
      entry.2.2.times.findSome? fun time => failure? (calendar.momentOf start time) := by
  rw [TimelineItem.times, List.findSome?_append, ← failure?_optionMomentOf,
    ← failure?_optionMomentOf, rowFor]
  cases calendar.optionMomentOf start entry.2.2.start with
  | error failure => rfl
  | ok first => cases calendar.optionMomentOf start entry.2.2.finish <;> rfl

/-- A schedule fails as the first of its times that has no place. -/
theorem failure?_scheduleItems (remembers : calendar.Remembers cache) (start : Day)
    (timeline : Timeline) : failure? (calendar.scheduleItems start cache timeline.items) =
      timeline.times.findSome? fun time => failure? (calendar.momentOf start time) := by
  rw [scheduleItems_eq_mapM remembers, failure?_mapM, Timeline.times, findSome?_flatMap]
  simp only [failure?_rowFor]

theorem scheduleItems_eq_error_iff (remembers : calendar.Remembers cache) {failure : CalendarError} :
    calendar.scheduleItems start cache timeline.items = .error failure ↔
      ∃ before time after, timeline.times = before ++ time :: after ∧
        calendar.placeFresh start time = .error failure ∧
        ∀ earlier ∈ before, ∃ moment, calendar.placeFresh start earlier = .ok moment := by
  rw [← failure?_eq_some_iff, failure?_scheduleItems remembers, List.findSome?_eq_some_iff]
  simp only [failure?_eq_some_iff, failure?_eq_none_iff, momentOf_eq_placeFresh]

/-- No answer depends on what was asked before: a calendar that has placed any business times places
further ones as a calendar that remembers nothing, as a cache of steps answers as the function that it
remembers. The cache holds each step that was answered once, and none that was not. A schedule has one
row for each milestone of each group, in ascending order, as made by a calendar that remembers nothing,
or the error of the first time that has no place. -/
theorem answers_independent_of_history (calendar : BusinessCalendar) :
    (∀ queries, (calendar.placeAll .empty queries).1 =
      queries.map fun query => calendar.placeFresh query.1 query.2) ∧
    (∀ (step : Day → Nat → Option Day) (keys : List (Day × Nat)),
      (StepCache.getAll step .empty keys).1 = keys.map (fun key => step key.1 key.2) ∧
      (StepCache.getAll step .empty keys).2.size =
        (keys.filter fun key => (step key.1 key.2).isSome).dedup.length) ∧
    (∀ (step : Day → Nat → Option Day) (cache : StepCache) (day : Day) (count : Nat),
      (cache.get step day count).1 = none → (cache.get step day count).2 = cache) ∧
    ∀ (queries : List (Day × Binary64)) (timeline : Timeline) (start : Day),
      (∀ rows, calendar.scheduleItems start (calendar.placeAll .empty queries).2 timeline.items =
          .ok rows ↔ List.Forall₂ (calendar.FreshRowOf start) timeline.items rows) ∧
      (∀ failure, calendar.scheduleItems start (calendar.placeAll .empty queries).2 timeline.items =
          .error failure ↔
        ∃ before time after, timeline.times = before ++ time :: after ∧
          calendar.placeFresh start time = .error failure ∧
          ∀ earlier ∈ before, ∃ moment, calendar.placeFresh start earlier = .ok moment) ∧
      (timeline.items.Pairwise fun earlier later =>
        earlier.1 < later.1 ∨ earlier.1 = later.1 ∧ earlier.2.1 < later.2.1) ∧
      ∀ group milestone item, (group, milestone, item) ∈ timeline.items ↔
        ∃ items, timeline.get? group = some items ∧ items.get? milestone = some item := by
  refine ⟨fun queries => ?_, fun step keys => ⟨?_, ?_⟩, fun _ _ _ _ => StepCache.get_snd_of_none,
    fun queries timeline start => ⟨fun rows => ?_, fun failure => ?_, ?_, fun _ _ _ => ?_⟩⟩
  · rw [((remembers_empty calendar).placeAll queries).1]
    simp only [momentOf_eq_placeFresh]
  · exact ((StepCache.agreesWith_empty step).getAll keys).1
  · have knows := (StepCache.knows_empty step).getAll keys
    rw [List.nil_append] at knows
    exact knows.size_eq
  · rw [freshRowOf_eq]
    exact scheduleItems_eq_ok_iff ((remembers_empty calendar).placeAll queries).2
  · exact scheduleItems_eq_error_iff ((remembers_empty calendar).placeAll queries).2
  · exact timeline.pairwise_items
  · exact Timeline.mem_items

/-- Business is done on the last two representable days alone, from nine to five. -/
def lastTwoDaysOpen : BusinessCalendar := ⟨lastTwoDays, fun _ => WorkCalendar.standard.hours⟩

/-- Nine o'clock on the last day but one, and on the last day. -/
def nineOnLastButOne : DateTime :=
  ⟨⟨lastDayNumber - 1, by decide, by decide⟩, WorkCalendar.standard.hours.opening⟩
def nineOnLast : DateTime := ⟨finalDay, WorkCalendar.standard.hours.opening⟩

def minusOne : Binary64 := .ofBits 0xBFF0000000000000

theorem step_lastTwoDaysOpen :
    lastTwoDaysOpen.step threeDaysBefore 0 = some nineOnLastButOne.day ∧
      lastTwoDaysOpen.step threeDaysBefore 1 = some finalDay ∧
      lastTwoDaysOpen.step threeDaysBefore 2 = none := by
  have ended : finalDay.next? = none := Day.next?_eq_none_iff.mpr rfl
  exact ⟨addBusinessDays?_eq_some_iff.mpr (by decide +kernel),
    addBusinessDays?_eq_some_iff.mpr (by decide +kernel),
    addBusinessDays?_of_few ended (by decide +kernel)⟩

/-- Times of whole days are at nine on the days that they lead to. -/
theorem placeFresh_lastTwoDaysOpen {time : Binary64} {day : Day} (business : isBusinessTime time = true)
    (whole : time.fractionUnits = 0)
    (landed : lastTwoDaysOpen.step threeDaysBefore time.wholePart = some day) :
    lastTwoDaysOpen.placeFresh threeDaysBefore time =
      .ok ⟨day, WorkCalendar.standard.hours.opening⟩ := by
  obtain ⟨_, nonneg, _⟩ := isBusinessTime_iff.mp business
  rw [← Binary64.floor_value nonneg] at landed
  rw [← momentOf_eq_placeFresh]
  exact (liesAt_opening business whole step_lastTwoDaysOpen.1 BusinessHours.standard_length_pos
    landed).momentOf

/-- The first milestone ends where the second starts, and the second goes on. -/
def begunTimeline : GroupTimeline :=
  .ofList [(⟨"M1"⟩, ⟨some (.ofBits 0), some Plan.one⟩), (⟨"M2"⟩, ⟨some Plan.one, none⟩)]

/-- One time twice, and between them one that is no business time and one past the last day. -/
def askedTimes : List (Day × Binary64) :=
  [(threeDaysBefore, Plan.one), (threeDaysBefore, minusOne), (threeDaysBefore, Plan.two),
    (threeDaysBefore, Plan.one)]

/-- One step twice with one past the last day between them, and then the step to a business day. -/
def askedSteps : List (Day × Nat) :=
  [(threeDaysBefore, 1), (threeDaysBefore, 2), (threeDaysBefore, 1), (threeDaysBefore, 0)]

/-- The time that is asked for again has the same moment, after the failures of the times between. The
cache holds two of the three steps. A schedule that is made with the memory of all this has its rows,
and one of which a time is past the last day has that error. -/
theorem answers_independent_of_history_lastTwoDays :
    (lastTwoDaysOpen.placeAll .empty askedTimes).1 =
      [.ok nineOnLast, .error (.invalidBusinessTime minusOne), .error .pastLastDay, .ok nineOnLast] ∧
    (StepCache.getAll lastTwoDaysOpen.step .empty askedSteps).1 =
      [some finalDay, none, some finalDay, some nineOnLastButOne.day] ∧
    (StepCache.getAll lastTwoDaysOpen.step .empty askedSteps).2.size = 2 ∧
    ((StepCache.getAll lastTwoDaysOpen.step .empty askedSteps).2.get lastTwoDaysOpen.step
      threeDaysBefore 2).2 = (StepCache.getAll lastTwoDaysOpen.step .empty askedSteps).2 ∧
    lastTwoDaysOpen.scheduleItems threeDaysBefore (lastTwoDaysOpen.placeAll .empty askedTimes).2
        (Timeline.items (.ofList [(⟨"G"⟩, begunTimeline)])) =
      .ok [⟨⟨"G"⟩, ⟨"M1"⟩, some nineOnLastButOne, some nineOnLast⟩,
        ⟨⟨"G"⟩, ⟨"M2"⟩, some nineOnLast, none⟩] ∧
    lastTwoDaysOpen.scheduleItems threeDaysBefore (lastTwoDaysOpen.placeAll .empty askedTimes).2
        (Timeline.items (.ofList [(⟨"G"⟩, Plan.reworkTimeline)])) = .error .pastLastDay := by
  obtain ⟨placed, steps, keeps, schedules⟩ := answers_independent_of_history lastTwoDaysOpen
  obtain ⟨zero, one, two⟩ := step_lastTwoDaysOpen
  obtain ⟨answered, sized⟩ := steps lastTwoDaysOpen.step askedSteps
  obtain ⟨rows, _⟩ := schedules askedTimes (.ofList [(⟨"G"⟩, begunTimeline)]) threeDaysBefore
  obtain ⟨_, fails, _⟩ := schedules askedTimes (.ofList [(⟨"G"⟩, Plan.reworkTimeline)]) threeDaysBefore
  have atZero : lastTwoDaysOpen.placeFresh threeDaysBefore (.ofBits 0) = .ok nineOnLastButOne :=
    placeFresh_lastTwoDaysOpen (by decide +kernel) (by decide +kernel) zero
  have atOne : lastTwoDaysOpen.placeFresh threeDaysBefore Plan.one = .ok nineOnLast :=
    placeFresh_lastTwoDaysOpen (by decide +kernel) (by decide +kernel) one
  have atTwo : lastTwoDaysOpen.placeFresh threeDaysBefore Plan.two = .error .pastLastDay := by
    rw [← momentOf_eq_placeFresh]
    exact momentOf_of_exhausted (by decide +kernel) (fun _ _ => BusinessHours.standard_length_pos) two
  have below : lastTwoDaysOpen.placeFresh threeDaysBefore minusOne =
      .error (.invalidBusinessTime minusOne) := by
    have business : isBusinessTime minusOne = false := by decide +kernel
    simp only [placeFresh, place, business, Bool.not_false, if_true]
  refine ⟨?_, ?_, ?_, ?_, (rows _).mpr ?_, (fails _).mpr ?_⟩
  · rw [placed]
    simp only [askedTimes, List.map_cons, List.map_nil, atOne, below, atTwo]
  · rw [answered]
    simp only [askedSteps, List.map_cons, List.map_nil, one, two, zero]
  · rw [sized]
    simp only [askedSteps, List.filter_cons, one, two, zero]
    decide
  · have agrees := (StepCache.agreesWith_empty lastTwoDaysOpen.step).getAll askedSteps
    exact keeps _ _ _ _ ((agrees.2.get_fst threeDaysBefore 2).trans two)
  · exact .cons ⟨rfl, rfl, .some atZero, .some atOne⟩ (.cons ⟨rfl, rfl, .some atOne, .none⟩ .nil)
  · refine ⟨[.ofBits 0, Plan.one, Plan.one], Plan.two, [], rfl, atTwo, ?_⟩
    simp only [List.forall_mem_cons, List.not_mem_nil, false_imp_iff, implies_true, and_true]
    exact ⟨⟨_, atZero⟩, ⟨_, atOne⟩, ⟨_, atOne⟩⟩

end BusinessCalendar

end ProcessFlow
