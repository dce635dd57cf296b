import ProcessFlow.Proofs.Calendar.DaySteps
import ProcessFlow.Proofs.Config

/-! # Work calendars week by week

Any seven consecutive days have each weekday once, so that they have as many workdays as the calendar
names different weekdays. Without holidays a count over whole weeks of workdays is therefore that many
weeks, from wherever it starts. With holidays there is still a workday in each week, and each holiday
takes away at most one of them, so that a count ends within as many weeks as it counts, with a week
for each holiday and one for the first business day.
-/

namespace ProcessFlow

/-! ## The days of a week -/

namespace Weekday

/-- Every weekday comes within seven days. -/
theorem exists_ofDayNumber (first : Int) (weekday : Weekday) :
    ∃ offset < 7, ofDayNumber (first + (offset : Nat)) = weekday := by
  obtain ⟨number, rfl⟩ : ∃ number, ofDayNumber number = weekday := by
    cases weekday with
    | monday => exact ⟨4, rfl⟩
    | tuesday => exact ⟨5, rfl⟩
    | wednesday => exact ⟨6, rfl⟩
    | thursday => exact ⟨0, rfl⟩
    | friday => exact ⟨1, rfl⟩
    | saturday => exact ⟨2, rfl⟩
    | sunday => exact ⟨3, rfl⟩
  refine ⟨((number - first) % 7).toNat, by omega, ?_⟩
  rw [ofDayNumber_eq_iff]
  omega

end Weekday

/-- The days of a span that is representable are counted by their numbers. -/
theorem countP_span_of_number (number : Int → Prop) [DecidablePred number] {first : Day}
    {length : Nat} (within : first.number + length ≤ lastDayNumber + 1) :
    (first.span length).countP (fun day => number day.number) =
      Nat.count (fun offset => number (first.number + offset)) length := by
  induction length generalizing first with
  | zero => rfl
  | succ length ih =>
    rw [Nat.count_succ']
    cases step : first.next? with
    | none =>
      have last := Day.next?_eq_none_iff.mp step
      obtain rfl : length = 0 := by omega
      rw [Day.span_succ_of_last step, List.countP_singleton]
      simp
    | some next =>
      have further := Day.next?_eq_some_iff.mp step
      have shifted (offset : Nat) : next.number + offset = first.number + (offset + 1 : Nat) := by
        omega
      rw [Day.span_succ_of_next step, List.countP_cons, ih (by omega)]
      simp [shifted]

/-- A span with more business days than counted has the day that the count ends on. -/
theorem exists_addBusinessDays?_within {isBusinessDay : Day → Bool} {day : Day} {count length : Nat}
    (enough : count < (day.span length).countP isBusinessDay) :
    ∃ last ∈ day.span length, addBusinessDays? isBusinessDay day count = some last := by
  obtain ⟨last, reached⟩ := exists_addBusinessDays? enough
  obtain ⟨_, before, between⟩ := addBusinessDays?_eq_some_iff.mp reached
  refine ⟨last, Day.mem_span.mpr ⟨before, ?_⟩, reached⟩
  by_contra beyond
  rw [businessDaysBetween_eq_ncard] at between
  rw [countP_span, ← between] at enough
  refine absurd (Set.ncard_le_ncard ?_ (Set.toFinite _)) (Nat.not_le.mpr enough)
  rintro other ⟨after, within, business⟩
  refine ⟨after, Day.lt_iff.mpr ?_, business⟩
  omega

namespace WorkCalendar

variable {calendar : WorkCalendar} {day last : Day}

def FallsOnWorkday (calendar : WorkCalendar) (number : Int) : Prop :=
  Weekday.ofDayNumber number ∈ calendar.workdays

instance (calendar : WorkCalendar) : DecidablePred calendar.FallsOnWorkday := fun number =>
  inferInstanceAs (Decidable (Weekday.ofDayNumber number ∈ calendar.workdays))

/-- How many day numbers from one on, of as many as given, fall on workdays. -/
def workdaysFrom (calendar : WorkCalendar) (first : Int) (length : Nat) : Nat :=
  Nat.count (fun offset => calendar.FallsOnWorkday (first + offset)) length

/-- How many weekdays are workdays. One that is named again does not count again. -/
def workdaysPerWeek (calendar : WorkCalendar) : Nat := calendar.workdays.toFinset.card

theorem workdaysPerWeek_pos (named : calendar.workdays ≠ []) : 0 < calendar.workdaysPerWeek := by
  rw [workdaysPerWeek, Finset.card_pos, List.toFinset_nonempty_iff]
  exact named

/-- Any seven consecutive days have the workdays of a week. -/
theorem workdaysFrom_seven (calendar : WorkCalendar) (first : Int) :
    calendar.workdaysFrom first 7 = calendar.workdaysPerWeek := by
  have weekdays : calendar.workdays.toFinset = {offset ∈ Finset.range 7 |
      calendar.FallsOnWorkday (first + (offset : Nat))}.image
        fun offset : Nat => Weekday.ofDayNumber (first + offset) := by
    ext weekday
    simp only [List.mem_toFinset, Finset.mem_image, Finset.mem_filter, Finset.mem_range]
    constructor
    · intro isWorkday
      obtain ⟨offset, within, rfl⟩ := Weekday.exists_ofDayNumber first weekday
      exact ⟨offset, ⟨within, isWorkday⟩, rfl⟩
    · rintro ⟨offset, ⟨_, isWorkday⟩, rfl⟩
      exact isWorkday
  rw [workdaysFrom, workdaysPerWeek, Nat.count_eq_card_filter_range, weekdays,
    Finset.card_image_of_injOn]
  intro left isLeft right isRight same
  have within := Finset.mem_range.mp (Finset.mem_filter.mp isLeft).1
  have withinRight := Finset.mem_range.mp (Finset.mem_filter.mp isRight).1
  have modulo := Weekday.ofDayNumber_eq_iff.mp same
  omega

theorem fallsOnWorkday_add_weeks (first : Int) (weeks : Nat) :
    calendar.FallsOnWorkday (first + 7 * weeks) ↔ calendar.FallsOnWorkday first := by
  have same : Weekday.ofDayNumber (first + 7 * weeks) = Weekday.ofDayNumber first :=
    Weekday.ofDayNumber_eq_iff.mpr (by omega)
  rw [FallsOnWorkday, FallsOnWorkday, same]

/-- Whole weeks have the workdays of a week each. -/
theorem workdaysFrom_weeks (calendar : WorkCalendar) (first : Int) (weeks : Nat) :
    calendar.workdaysFrom first (7 * weeks) = calendar.workdaysPerWeek * weeks := by
  induction weeks with
  | zero => rfl
  | succ weeks ih =>
    have week := calendar.workdaysFrom_seven (first + (7 * weeks : Nat))
    rw [workdaysFrom] at ih week ⊢
    rw [Nat.mul_succ, Nat.count_add, ih, Nat.mul_succ, ← week]
    congr 2
    funext offset
    rw [Nat.cast_add, Int.add_assoc]

/-! ## Without holidays -/

theorem isBusinessDay_of_unbroken (unbroken : calendar.holidays = ∅) (day : Day) :
    calendar.isBusinessDay day = true ↔ calendar.FallsOnWorkday day.number := by
  rw [isBusinessDay_iff, unbroken]
  exact and_iff_left OrderedSet.not_mem_empty

/-- Without holidays the business days between two days are the workdays. -/
theorem businessDaysBetween_of_unbroken (unbroken : calendar.holidays = ∅) (day last : Day) :
    businessDaysBetween calendar.isBusinessDay day last =
      calendar.workdaysFrom day.number (last.number - day.number).toNat := by
  have bound := last.le_last
  have before := day.le_last
  rw [workdaysFrom, ← countP_span_of_number _ (by omega), businessDaysBetween]
  apply List.countP_congr
  intro between _
  rw [isBusinessDay_of_unbroken unbroken, decide_eq_true_eq]

/-- From a business day, whole weeks of workdays lead to the day that many weeks later. -/
theorem addBusinessDays?_of_business (unbroken : calendar.holidays = ∅)
    (business : calendar.isBusinessDay day = true) (weeks : Nat) :
    addBusinessDays? calendar.isBusinessDay day (calendar.workdaysPerWeek * weeks) =
      Day.ofNumber? (day.number + 7 * weeks) := by
  rw [isBusinessDay_of_unbroken unbroken] at business
  ext last
  rw [addBusinessDays?_eq_some_iff, Day.ofNumber?_eq_some_iff,
    businessDaysBetween_of_unbroken unbroken, isBusinessDay_of_unbroken unbroken, Day.le_iff,
    ← workdaysFrom_weeks calendar day.number weeks]
  constructor
  · rintro ⟨isWorkday, before, counted⟩
    -- Both ends of the stretches fall on workdays, so that equal counts are equal stretches.
    have here : calendar.FallsOnWorkday
        (day.number + ((last.number - day.number).toNat : Int)) := by
      rwa [show day.number + ((last.number - day.number).toNat : Int) = last.number by omega]
    have there : calendar.FallsOnWorkday (day.number + ((7 * weeks : Nat) : Int)) := by
      rw [Nat.cast_mul]
      exact (fallsOnWorkday_add_weeks _ _).mpr business
    have same : (last.number - day.number).toNat = 7 * weeks :=
      Nat.count_injective here there counted
    omega
  · intro later
    refine ⟨?_, by omega, ?_⟩
    · rw [later, fallsOnWorkday_add_weeks]
      exact business
    · congr 1
      omega

/-- Without holidays, counting as many more business days as there are workdays in some weeks ends
that many weeks later, if that day is representable, and runs past the last day if it is not. -/
theorem addBusinessDays?_weeks (calendar : WorkCalendar) (unbroken : calendar.holidays = ∅)
    (day : Day) (count weeks : Nat) :
    addBusinessDays? calendar.isBusinessDay day (count + calendar.workdays.toFinset.card * weeks) =
      (addBusinessDays? calendar.isBusinessDay day count).bind
        fun last => Day.ofNumber? (last.number + 7 * weeks) := by
  rw [addBusinessDays?_add]
  apply Option.bind_congr
  intro last reached
  exact addBusinessDays?_of_business unbroken (addBusinessDays?_eq_some_iff.mp reached).1 weeks

/-- Works on Mondays and Wednesdays, and names Monday twice. -/
def mondaysAndWednesdays : WorkCalendar :=
  { standard with workdays := [.monday, .wednesday, .monday] }

/-- With two workdays in a week, a count of one and three weeks' workdays more leads from a Saturday
to a Wednesday and to the Wednesday three weeks later. -/
theorem addBusinessDays?_weeks_mondaysAndWednesdays :
    mondaysAndWednesdays.holidays = ∅ ∧ mondaysAndWednesdays.workdays.toFinset.card = 2 ∧
    addBusinessDays? mondaysAndWednesdays.isBusinessDay ⟨18629, by decide, by decide⟩ 1 =
      some ⟨18633, by decide, by decide⟩ ∧
    addBusinessDays? mondaysAndWednesdays.isBusinessDay ⟨18629, by decide, by decide⟩ (1 + 2 * 3) =
      some ⟨18654, by decide, by decide⟩ := by
  have two : mondaysAndWednesdays.workdays.toFinset.card = 2 := by decide
  have first : addBusinessDays? mondaysAndWednesdays.isBusinessDay ⟨18629, by decide, by decide⟩ 1 =
      some ⟨18633, by decide, by decide⟩ :=
    addBusinessDays?_eq_some_iff.mpr (by decide +kernel)
  have further := addBusinessDays?_weeks mondaysAndWednesdays rfl ⟨18629, by decide, by decide⟩ 1 3
  rw [two, first, Option.bind_some] at further
  refine ⟨rfl, two, first, further.trans ?_⟩
  exact Day.ofNumber?_eq_some_iff.mpr rfl

/-! ## With holidays -/

/-- Each holiday takes at most one workday away. -/
theorem countP_workdays_le (calendar : WorkCalendar) (first : Day) (length : Nat) :
    (first.span length).countP (fun day => calendar.FallsOnWorkday day.number) ≤
      (first.span length).countP calendar.isBusinessDay + calendar.holidays.size := by
  have distinct : (first.span length).Nodup := (first.span_ascending length).imp Std.ne_of_lt
  rw [List.countP_eq_countP_filter_add _ _ (fun day => decide (day ∉ calendar.holidays)),
    List.countP_filter]
  apply Nat.add_le_add (Nat.le_of_eq (List.countP_congr fun day _ => ?business))
  case business =>
    rw [isBusinessDay_iff, Bool.and_eq_true, decide_eq_true_eq, decide_eq_true_eq]
    rfl
  refine Nat.le_trans List.countP_le_length ?_
  apply ((distinct.filter _).subperm fun day member => ?_).length_le
  have isHoliday := (List.mem_filter.mp member).2
  rwa [Bool.not_eq_true', decide_eq_false_iff_not, not_not] at isHoliday

/-- As many weeks as there are holidays, and some more, have a business day for each week more. -/
theorem le_countP_of_weeks (day : Day) (named : calendar.workdays ≠ []) (weeks : Nat)
    (within : day.number + (7 * (weeks + calendar.holidays.size) : Nat) ≤ lastDayNumber + 1) :
    weeks ≤ (day.span (7 * (weeks + calendar.holidays.size))).countP calendar.isBusinessDay := by
  have bound := calendar.countP_workdays_le day (7 * (weeks + calendar.holidays.size))
  rw [countP_span_of_number _ within, ← workdaysFrom, workdaysFrom_weeks] at bound
  have each := Nat.le_mul_of_pos_left (weeks + calendar.holidays.size) (workdaysPerWeek_pos named)
  omega

/-- Every search ends within as many weeks as it counts, with a week for each holiday and one for the
first business day, if there are as many. So it has at most a step for each day of those weeks. -/
def SearchesWithinWeeks (calendar : WorkCalendar) : Prop :=
  ∀ (day limit : Day) (count : UInt32),
    limit.number = day.number + 7 * (count.toNat + calendar.holidays.size + 1) - 1 →
    ¬DaySearch.RunsOut calendar.isBusinessDay count day ∧
    (∃ last, addBusinessDays? calendar.isBusinessDay day count.toNat = some last ∧
      DaySearch.ComesTo calendar.isBusinessDay count day last ∧ last ≤ limit) ∧
    ∀ trace, (.rolling day :: trace).IsChain (DaySearch.Step calendar.isBusinessDay count) →
      trace.length ≤ 7 * (count.toNat + calendar.holidays.size + 1)

theorem searchesWithinWeeks_of_named (named : calendar.workdays ≠ []) :
    calendar.SearchesWithinWeeks := by
  intro day limit count weeks
  have bound := limit.le_last
  have enough := le_countP_of_weeks day named (count.toNat + 1) (by omega)
  obtain ⟨last, before, reached⟩ := exists_addBusinessDays?_within enough
  have within : last ≤ limit := by
    rw [Day.mem_span] at before
    rw [Day.le_iff]
    omega
  refine ⟨?_, ⟨last, reached, DaySearch.comesTo_iff.mpr reached, within⟩, fun trace run => ?_⟩
  · rw [DaySearch.runsOut_iff, reached]
    nofun
  · have steps := DaySearch.length_of_isChain reached run
    rw [Day.le_iff] at within
    omega

/-- A calendar with a workday lets every search end within its weeks, and so does every calendar that
a configuration is accepted with. -/
theorem searchesWithinWeeks (calendar : WorkCalendar) :
    (calendar.workdays ≠ [] → calendar.SearchesWithinWeeks) ∧
    ∀ start, (ProjectConfig.mk calendar start).validate = .ok () → calendar.SearchesWithinWeeks := by
  refine ⟨searchesWithinWeeks_of_named, fun start accepted => ?_⟩
  exact searchesWithinWeeks_of_named (ProjectConfig.validate_eq_ok_iff.mp accepted).1

/-- Works on Saturdays, two of which are holidays. -/
def someSaturdays : WorkCalendar :=
  { standard with
    workdays := [.saturday, .saturday]
    holidays := .ofList [⟨18664, by decide, by decide⟩, ⟨18671, by decide, by decide⟩] }

/-- The bound is reached: from a Sunday on, with a holiday on each of the next two Saturdays, a count
of one takes four weeks to the day. -/
theorem searchesWithinWeeks_someSaturdays :
    someSaturdays.workdays ≠ [] ∧ someSaturdays.holidays.size = 2 ∧
    (ProjectConfig.mk someSaturdays none).validate = .ok () ∧ someSaturdays.SearchesWithinWeeks ∧
    DaySearch.ComesTo someSaturdays.isBusinessDay 1 ⟨18658, by decide, by decide⟩
      ⟨18658 + 7 * (1 + 2 + 1) - 1, by decide, by decide⟩ := by
  have named : someSaturdays.workdays ≠ [] := by decide
  have accepted : (ProjectConfig.mk someSaturdays none).validate = .ok () := by decide
  have two : someSaturdays.holidays.size = 2 := by decide
  have fourth : addBusinessDays? someSaturdays.isBusinessDay ⟨18658, by decide, by decide⟩ 1 =
      some ⟨18685, by decide, by decide⟩ := addBusinessDays?_eq_some_iff.mpr (by decide +kernel)
  obtain ⟨fromNamed, fromAccepted⟩ := searchesWithinWeeks someSaturdays
  obtain ⟨_, ⟨last, reached, comesTo, _⟩, _⟩ := fromNamed named ⟨18658, by decide, by decide⟩
    ⟨18685, by decide, by decide⟩ 1 (by rw [two]; rfl)
  obtain rfl := Option.some.inj (fourth.symm.trans reached)
  exact ⟨named, two, accepted, fromAccepted none accepted, comesTo⟩

end WorkCalendar

end ProcessFlow
