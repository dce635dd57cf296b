import ProcessFlow.Proofs.Calendar.BusinessTime
import ProcessFlow.Proofs.Timeline.Table
import ProcessFlow.Schedule

/-! # The order of a schedule

A schedule has a row for each milestone of each group, with its times placed on the wall clock. Rows
keep the order of the timeline: no row ends before it starts, and within a group the row of a
milestone ends before any that depends on it starts.
-/

namespace ProcessFlow

open Relation

/-! ## Rows -/

namespace Timeline

variable {timeline : Timeline} {group : GroupId} {milestone : MilestoneId} {item : TimelineItem}

/-- The items are the milestones of the groups. -/
theorem mem_items : (group, milestone, item) ∈ timeline.items ↔
    ∃ items, timeline.get? group = some items ∧ items.get? milestone = some item := by
  simp only [items, List.mem_flatMap, List.mem_map, Prod.mk.injEq, OrderedMap.get?_eq_some_iff]
  constructor
  · rintro ⟨⟨_, items⟩, isGroup, ⟨_, _⟩, isMilestone, rfl, rfl, rfl⟩
    exact ⟨items, isGroup, isMilestone⟩
  · rintro ⟨items, isGroup, isMilestone⟩
    exact ⟨_, isGroup, _, isMilestone, rfl, rfl, rfl⟩

end Timeline

namespace BusinessCalendar

variable {calendar : BusinessCalendar} {cache : StepCache} {start : Day}

/-- A moment is where a business time lies. -/
def PlacesAt (calendar : BusinessCalendar) (start : Day) (time : Binary64) (moment : DateTime) : Prop :=
  ∃ anchor, calendar.LiesAt start anchor time moment

/-- A row has the group and the milestone of an item, and its times are placed where they are set. -/
structure RowOf (calendar : BusinessCalendar) (start : Day)
    (entry : GroupId × MilestoneId × TimelineItem) (row : ScheduleRow) : Prop where
  group : row.group = entry.1
  milestone : row.milestone = entry.2.1
  begins : Option.Rel (calendar.PlacesAt start) entry.2.2.start row.start
  ends : Option.Rel (calendar.PlacesAt start) entry.2.2.finish row.finish

/-- Place a time that may be unset, with every step taken anew. -/
def optionMomentOf (calendar : BusinessCalendar) (start : Day) :
    Option Binary64 → Except CalendarError (Option DateTime)
  | none => .ok none
  | some time => (calendar.momentOf start time).map some

theorem optionMomentOf_eq_ok_iff {time : Option Binary64} {moment : Option DateTime} :
    calendar.optionMomentOf start time = .ok moment ↔
      Option.Rel (calendar.PlacesAt start) time moment := by
  cases time with
  | none =>
    rw [optionMomentOf, Except.ok.injEq]
    constructor
    · rintro rfl
      exact .none
    · intro placed
      cases placed
      rfl
  | some time =>
    rw [optionMomentOf]
    constructor
    · intro placed
      cases found : calendar.momentOf start time with
      | error failure =>
        rw [found] at placed
        cases placed
      | ok moment =>
        rw [found] at placed
        cases placed
        exact .some (momentOf_eq_ok_iff.mp found)
    · intro placed
      cases placed with
      | some lies =>
        rw [momentOf_eq_ok_iff.mpr lies]
        rfl

/-- The row of an item, with every step taken anew. -/
def rowFor (calendar : BusinessCalendar) (start : Day)
    (entry : GroupId × MilestoneId × TimelineItem) : Except CalendarError ScheduleRow := do
  let first ← calendar.optionMomentOf start entry.2.2.start
  let last ← calendar.optionMomentOf start entry.2.2.finish
  return ⟨entry.1, entry.2.1, first, last⟩

/-- An item has a row exactly if its times lie somewhere. -/
theorem rowFor_eq_ok_iff {entry : GroupId × MilestoneId × TimelineItem} {row : ScheduleRow} :
    calendar.rowFor start entry = .ok row ↔ calendar.RowOf start entry row := by
  constructor
  · intro made
    rw [rowFor] at made
    cases begins : calendar.optionMomentOf start entry.2.2.start with
    | error failure =>
      rw [begins] at made
      cases made
    | ok first =>
      cases ends : calendar.optionMomentOf start entry.2.2.finish with
      | error failure =>
        rw [begins, ends] at made
        cases made
      | ok last =>
        rw [begins, ends] at made
        cases made
        exact ⟨rfl, rfl, optionMomentOf_eq_ok_iff.mp begins, optionMomentOf_eq_ok_iff.mp ends⟩
  · rintro ⟨group, milestone, begins, ends⟩
    rw [rowFor, optionMomentOf_eq_ok_iff.mpr begins, optionMomentOf_eq_ok_iff.mpr ends, ← group,
      ← milestone]
    rfl

/-- Remembered steps do not change where a time is placed. -/
theorem Remembers.placeOption (remembers : calendar.Remembers cache) (start : Day)
    (time : Option Binary64) :
    (calendar.placeOption start cache time).1 = calendar.optionMomentOf start time ∧
      calendar.Remembers (calendar.placeOption start cache time).2 := by
  cases time with
  | none => exact ⟨rfl, remembers⟩
  | some time =>
    obtain ⟨answered, kept⟩ := remembers.place start time
    exact ⟨congrArg (Except.map some) answered, kept⟩

/-- Remembered steps do not change a row. -/
theorem Remembers.scheduleRow (remembers : calendar.Remembers cache) (start : Day) (group : GroupId)
    (milestone : MilestoneId) (item : TimelineItem) :
    (calendar.scheduleRow start cache group milestone item).1 =
        calendar.rowFor start (group, milestone, item) ∧
      calendar.Remembers (calendar.scheduleRow start cache group milestone item).2 := by
  obtain ⟨begins, kept⟩ := remembers.placeOption start item.start
  rw [BusinessCalendar.scheduleRow, rowFor, ← begins]
  revert kept
  rcases calendar.placeOption start cache item.start with ⟨answer, memory⟩
  intro kept
  cases answer with
  | error failure => exact ⟨rfl, kept⟩
  | ok first =>
    obtain ⟨ends, keptEnd⟩ := kept.placeOption start item.finish
    rw [← ends]
    refine ⟨?_, keptEnd⟩
    dsimp only
    cases (calendar.placeOption start memory item.finish).1 <;> rfl

/-- A schedule is made row by row. What was placed before does not matter. -/
theorem scheduleItems_eq_mapM (remembers : calendar.Remembers cache) (start : Day)
    (items : List (GroupId × MilestoneId × TimelineItem)) :
    calendar.scheduleItems start cache items = items.mapM (calendar.rowFor start) := by
  induction items generalizing cache with
  | nil => rfl
  | cons entry rest ih =>
    obtain ⟨group, milestone, item⟩ := entry
    obtain ⟨answered, kept⟩ := remembers.scheduleRow start group milestone item
    rw [scheduleItems, List.mapM_cons, ← answered]
    revert kept
    rcases calendar.scheduleRow start cache group milestone item with ⟨answer, memory⟩
    intro kept
    cases answer with
    | error failure => rfl
    | ok row =>
      dsimp only
      rw [ih kept]
      cases rest.mapM (calendar.rowFor start) <;> rfl

/-- A schedule has exactly the rows of the items, if each of their times lies somewhere. -/
theorem scheduleItems_eq_ok_iff (remembers : calendar.Remembers cache)
    {items : List (GroupId × MilestoneId × TimelineItem)} {rows : List ScheduleRow} :
    calendar.scheduleItems start cache items = .ok rows ↔
      List.Forall₂ (calendar.RowOf start) items rows := by
  rw [scheduleItems_eq_mapM remembers, mapM_eq_ok_iff]
  simp only [rowFor_eq_ok_iff]

/-- A time that is placed was set. -/
theorem exists_of_rel {time : Option Binary64} {placed : Option DateTime} {moment : DateTime}
    (related : Option.Rel (calendar.PlacesAt start) time placed) (set : placed = some moment) :
    ∃ number, time = some number ∧ calendar.PlacesAt start number moment := by
  cases related with
  | none => cases set
  | some places =>
    cases set
    exact ⟨_, rfl, places⟩

/-- Moments keep the order of business times. -/
theorem PlacesAt.le {time other : Binary64} {moment later : DateTime}
    (places : calendar.PlacesAt start time moment) (further : calendar.PlacesAt start other later)
    (le : other.atLeast time = true) : moment ≤ later := by
  obtain ⟨anchor, lies⟩ := places
  obtain ⟨otherAnchor, liesLater⟩ := further
  apply lies.mono liesLater (Std.le_refl start)
  exact Binary64.value_le_of_atLeast lies.nonneg liesLater.nonneg le

theorem PlacesAt.isBusinessDay {time : Binary64} {moment : DateTime}
    (places : calendar.PlacesAt start time moment) : calendar.isBusinessDay moment.day = true := by
  obtain ⟨anchor, lies⟩ := places
  exact lies.isBusinessDay

end BusinessCalendar

/-! ## The schedule of a plan -/

namespace Plan

variable {plan : Plan} {table : MilestoneTable} {calendar : BusinessCalendar} {timeline : Timeline}
  {start : Day} {cache : StepCache} {rows : List ScheduleRow} {row : ScheduleRow}

/-- The times of a row are placed times of a milestone in the timeline of its group. -/
structure Schedules (plan : Plan) (table : MilestoneTable) (calendar : BusinessCalendar)
    (start : Day) (items : GroupTimeline) (row : ScheduleRow) : Prop where
  built : plan.groupTimeline table row.group = .ok items
  begins : ∀ moment, row.start = some moment →
    ∃ time, items.StartsAt row.milestone time ∧ calendar.PlacesAt start time moment
  ends : ∀ moment, row.finish = some moment →
    ∃ time, items.EndsAt row.milestone time ∧ calendar.PlacesAt start time moment

theorem exists_schedules (built : plan.timeline table = .ok timeline)
    (scheduled : List.Forall₂ (calendar.RowOf start) timeline.items rows) (member : row ∈ rows) :
    ∃ items, plan.Schedules table calendar start items row := by
  obtain ⟨⟨group, milestone, item⟩, isItem, isRow⟩ := exists_of_forall₂ scheduled member
  obtain ⟨items, foundGroup, found⟩ := Timeline.mem_items.mp isItem
  obtain ⟨sameGroup, sameMilestone, begins, ends⟩ := isRow
  refine ⟨items, ?_, fun moment set => ?_, fun moment set => ?_⟩
  · rw [sameGroup]
    exact ((get?_timeline built).mp foundGroup).2
  · obtain ⟨time, starts, places⟩ := BusinessCalendar.exists_of_rel begins set
    rw [sameMilestone]
    exact ⟨time, ⟨_, found, starts⟩, places⟩
  · obtain ⟨time, finishes, places⟩ := BusinessCalendar.exists_of_rel ends set
    rw [sameMilestone]
    exact ⟨time, ⟨_, found, finishes⟩, places⟩

/-- A schedule has a row for each milestone of each group, with the times that are set. No row ends
before it starts, within a group no row ends after the start of one that depends on it over however
many edges, and all moments are on business days. This holds whatever the calendar remembers. -/
theorem schedule_in_order (valid : plan.validate = .ok ())
    (built : plan.timeline table = .ok timeline) (remembers : calendar.Remembers cache)
    (scheduled : calendar.scheduleItems start cache timeline.items = .ok rows) :
    List.Forall₂ (calendar.RowOf start) timeline.items rows ∧
    (∀ row ∈ rows, ∀ first last, row.start = some first → row.finish = some last →
      first ≤ last) ∧
    (∀ earlier ∈ rows, ∀ later ∈ rows, earlier.group = later.group →
      TransGen (table.dependencyGraph earlier.group).Joins earlier.milestone later.milestone →
      ∀ last first, earlier.finish = some last → later.start = some first → last ≤ first) ∧
    ∀ row ∈ rows, ∀ moment, row.start = some moment ∨ row.finish = some moment →
      calendar.isBusinessDay moment.day = true := by
  have timed := timed_of_validate valid
  have placed := (BusinessCalendar.scheduleItems_eq_ok_iff remembers).mp scheduled
  refine ⟨placed, ?_, ?_, ?_⟩
  · intro row member first last starts finishes
    obtain ⟨items, schedules⟩ := exists_schedules built placed member
    obtain ⟨startTime, startsAt, placesStart⟩ := schedules.begins first starts
    obtain ⟨finishTime, endsAt, placesFinish⟩ := schedules.ends last finishes
    exact placesStart.le placesFinish (atLeast_of_item timed schedules.built startsAt endsAt)
  · intro earlier member later memberLater same depends last first finishes starts
    obtain ⟨items, schedules⟩ := exists_schedules built placed member
    obtain ⟨others, schedulesLater⟩ := exists_schedules built placed memberLater
    obtain rfl : items = others := by
      have builtLater := schedulesLater.built
      rw [← same, schedules.built] at builtLater
      exact Except.ok.inj builtLater
    obtain ⟨finishTime, endsAt, placesFinish⟩ := schedules.ends last finishes
    obtain ⟨startTime, startsAt, placesStart⟩ := schedulesLater.begins first starts
    exact placesFinish.le placesStart
      (atLeast_of_depends timed schedules.built depends endsAt startsAt)
  · intro row member moment set
    obtain ⟨items, schedules⟩ := exists_schedules built placed member
    rcases set with starts | finishes
    · obtain ⟨time, _, places⟩ := schedules.begins moment starts
      exact places.isBusinessDay
    · obtain ⟨time, _, places⟩ := schedules.ends moment finishes
      exact places.isBusinessDay

/-- Nine o'clock on the first Monday of 2021, or so many days after. -/
def nineOn (days : Fin 3) : DateTime :=
  ⟨⟨18631 + days.val, by unfold firstDayNumber; omega, by unfold lastDayNumber; omega⟩,
    WorkCalendar.standard.hours.opening⟩

/-- Times of whole days are at nine. -/
theorem placesAt_nineOn {time : Binary64} (days : Fin 3) (business : isBusinessTime time = true)
    (whole : time.fractionUnits = 0) (count : time.wholePart = days.val) :
    WorkCalendar.standard.toBusiness.PlacesAt (nineOn 0).day time (nineOn days) := by
  obtain ⟨_, nonneg, _⟩ := isBusinessTime_iff.mp business
  have steps (days : Fin 3) :
      WorkCalendar.standard.toBusiness.step (nineOn 0).day days.val = some (nineOn days).day := by
    apply addBusinessDays?_eq_some_iff.mpr
    revert days
    decide +kernel
  refine ⟨(nineOn 0).day, BusinessCalendar.liesAt_opening business whole (steps 0)
    BusinessHours.standard_length_pos ?_⟩
  rw [Binary64.floor_value nonneg, count]
  exact steps days

/-- The rows of the plan above, which starts on a Monday. -/
def reworkRows : List ScheduleRow :=
  [⟨⟨"G"⟩, ⟨"M1"⟩, some (nineOn 0), some (nineOn 1)⟩,
    ⟨⟨"G"⟩, ⟨"M2"⟩, some (nineOn 1), some (nineOn 2)⟩]

theorem schedule_in_order_rework :
    rework.timeline stages = .ok (.ofList [(⟨"G"⟩, reworkTimeline)]) ∧
    WorkCalendar.standard.toBusiness.schedule (.ofList [(⟨"G"⟩, reworkTimeline)]) (nineOn 0).day =
      .ok reworkRows ∧
    TransGen (stages.dependencyGraph ⟨"G"⟩).Joins ⟨"M1"⟩ ⟨"M2"⟩ ∧ nineOn 0 ≤ nineOn 1 ∧
    nineOn 1 ≤ nineOn 1 ∧ WorkCalendar.standard.isBusinessDay (nineOn 2).day = true := by
  have valid : rework.validate = .ok () := by cbv
  have built : rework.timeline stages = .ok (.ofList [(⟨"G"⟩, reworkTimeline)]) := by cbv
  have depends : TransGen (stages.dependencyGraph ⟨"G"⟩).Joins ⟨"M1"⟩ ⟨"M2"⟩ := .single (by decide)
  have remembers := BusinessCalendar.remembers_empty WorkCalendar.standard.toBusiness
  have atZero : WorkCalendar.standard.toBusiness.PlacesAt (nineOn 0).day (.ofBits 0) (nineOn 0) :=
    placesAt_nineOn 0 (by decide +kernel) (by decide +kernel) (by decide +kernel)
  have atOne : WorkCalendar.standard.toBusiness.PlacesAt (nineOn 0).day one (nineOn 1) :=
    placesAt_nineOn 1 (by decide +kernel) (by decide +kernel) (by decide +kernel)
  have atTwo : WorkCalendar.standard.toBusiness.PlacesAt (nineOn 0).day two (nineOn 2) :=
    placesAt_nineOn 2 (by decide +kernel) (by decide +kernel) (by decide +kernel)
  have scheduled : WorkCalendar.standard.toBusiness.scheduleItems (nineOn 0).day .empty
      (Timeline.items (.ofList [(⟨"G"⟩, reworkTimeline)])) = .ok reworkRows :=
    (BusinessCalendar.scheduleItems_eq_ok_iff remembers).mpr
      (.cons ⟨rfl, rfl, .some atZero, .some atOne⟩ (.cons ⟨rfl, rfl, .some atOne, .some atTwo⟩ .nil))
  obtain ⟨_, ordered, apart, business⟩ := schedule_in_order valid built remembers scheduled
  have first : (⟨⟨"G"⟩, ⟨"M1"⟩, some (nineOn 0), some (nineOn 1)⟩ : ScheduleRow) ∈ reworkRows :=
    List.mem_cons_self ..
  have second : (⟨⟨"G"⟩, ⟨"M2"⟩, some (nineOn 1), some (nineOn 2)⟩ : ScheduleRow) ∈ reworkRows :=
    List.mem_cons_of_mem _ (List.mem_cons_self ..)
  exact ⟨built, scheduled, depends, ordered _ first _ _ rfl rfl,
    apart _ first _ second rfl depends _ _ rfl rfl, business _ second _ (.inr rfl)⟩

end Plan

end ProcessFlow
