import Mathlib
import ProcessFlow.Config
import ProcessFlow.Proofs.Calendar.BusinessTime

/-! # Business times under an accepted configuration

A configuration is accepted if it names a workday and closes after it opens. Under it every business
time that has enough workdays left lies on one of them that is no holiday, from opening on and before
closing, as long as closing is not within a leap second that begins after opening. Otherwise this
holds up to the start of that leap second. From there on the time lies after closing, or on no day at
all.
-/

namespace ProcessFlow

namespace WorkCalendar

variable {calendar : WorkCalendar} {cache : StepCache} {start day : Day} {time : Binary64}

/-- The business days of a work calendar. -/
theorem isBusinessDay_iff : calendar.isBusinessDay day = true ↔
    day.weekday ∈ calendar.workdays ∧ day ∉ calendar.holidays := by
  simp [isBusinessDay]

/-- The offset of a business time from the opening of its day. -/
def offset (calendar : WorkCalendar) (time : Binary64) : Int :=
  offsetWithin calendar.hours.length.nanoseconds time

theorem momentOf_of_landed (business : isBusinessTime time = true)
    (opens : calendar.hours.opening < calendar.hours.closing)
    (landed : calendar.toBusiness.step start time.wholePart = some day) :
    calendar.toBusiness.momentOf start time =
      (shareAfter calendar.hours.opening calendar.hours.length.nanoseconds.toNat time).map
        (DateTime.mk day) := by
  have first : calendar.toBusiness.step start (0 + time.wholePart) =
    (calendar.toBusiness.step start 0).bind (calendar.toBusiness.step · time.wholePart) :=
      addBusinessDays?_add time.wholePart
  rw [Nat.zero_add, landed] at first
  obtain ⟨anchor, anchored, _⟩ := Option.bind_eq_some_iff.mp first.symm
  exact BusinessCalendar.momentOf_of_landed business anchored (TimeOfDay.since_pos opens) landed

/-- A business time that has enough business days left lies within business hours exactly if its
offset is one of the reachable lengths up to closing. -/
theorem momentOf_within_hours_iff (business : isBusinessTime time = true)
    (opens : calendar.hours.opening < calendar.hours.closing)
    (landed : calendar.toBusiness.step start time.wholePart = some day) :
    (∃ clock, calendar.toBusiness.momentOf start time = .ok ⟨day, clock⟩ ∧
      calendar.hours.opening ≤ clock ∧ clock < calendar.hours.closing) ↔
    calendar.offset time < calendar.hours.opening.reachableLength calendar.hours.closing := by
  have positive : 0 < calendar.hours.length.nanoseconds := TimeOfDay.since_pos opens
  have small := calendar.hours.length_lt
  have forward : 0 ≤ calendar.offset time := offsetWithin_nonneg positive small
  rw [momentOf_of_landed business opens landed]
  constructor
  · rintro ⟨clock, placed, _, less⟩
    cases share : shareAfter calendar.hours.opening calendar.hours.length.nanoseconds.toNat time with
    | error failure =>
      rw [share] at placed
      cases placed
    | ok reached =>
      rw [share] at placed
      cases placed
      exact ((shareAfter_eq_ok_iff positive small).mp share).lt_reachableLength opens less
  · intro below
    obtain ⟨clock, reaches, less⟩ :=
      TimeOfDay.exists_reaches_of_lt_reachableLength opens forward below
    refine ⟨clock, ?_, reaches.le forward, less⟩
    rw [(shareAfter_eq_ok_iff positive small).mpr reaches]
    rfl

/-- Of a business time that has enough business days left, the one error is that it leaves its day. -/
theorem eq_of_momentOf_eq_error {error : CalendarError} (business : isBusinessTime time = true)
    (opens : calendar.hours.opening < calendar.hours.closing)
    (landed : calendar.toBusiness.step start time.wholePart = some day)
    (failed : calendar.toBusiness.momentOf start time = .error error) :
    error = .crossesMidnight calendar.hours.opening ⟨calendar.offset time⟩ := by
  rw [momentOf_of_landed business opens landed] at failed
  cases share : shareAfter calendar.hours.opening calendar.hours.length.nanoseconds.toNat time with
  | ok reached =>
    rw [share] at failed
    cases failed
  | error failure =>
    rw [share] at failed
    cases failed
    exact eq_of_shareAfter_eq_error (TimeOfDay.since_pos opens) calendar.hours.length_lt share

end WorkCalendar

namespace ProjectConfig

variable {config : ProjectConfig} {cache : StepCache} {time : Binary64}

theorem validate_eq_ok_iff : config.validate = .ok () ↔
    config.calendar.workdays ≠ [] ∧
      config.calendar.hours.opening < config.calendar.hours.closing := by
  have after : ¬config.calendar.hours.closing ≤ config.calendar.hours.opening ↔
      config.calendar.hours.opening < config.calendar.hours.closing := by
    rw [TimeOfDay.le_iff, TimeOfDay.lt_iff]
    omega
  rw [validate, ← after, ne_eq, ← List.isEmpty_iff]
  split
  · rename_i none
    simp [none]
  · rename_i named
    split
    · rename_i closed
      simp [closed]
    · rename_i opens
      simp [named, opens]

/-- Under an accepted configuration a business time is past the last day if no business day on or
after the start has as many business days before it as the whole part says. Otherwise it lands on a
workday that is no holiday, and it lies within the hours of that day exactly if its offset is one of
the reachable lengths up to closing. All are, unless closing is within a leap second that begins after
opening. The one error on such a day is that the offset leaves it. -/
theorem place_of_validate (start : Day) (accepted : config.validate = .ok ())
    (remembers : config.calendar.toBusiness.Remembers cache) (finite : time.isFinite = true)
    (nonneg : 0 ≤ time.value) (below : time.value < 2 ^ 32 - 1) :
    let placed := (config.calendar.toBusiness.place cache start time).1
    let hours := config.calendar.hours
    let between := businessDaysBetween config.calendar.isBusinessDay start
    (placed = .error .pastLastDay ∧ ∀ day, start ≤ day →
      config.calendar.isBusinessDay day = true → between day ≠ ⌊time.value⌋₊) ∨
    ∃ day, day.weekday ∈ config.calendar.workdays ∧ day ∉ config.calendar.holidays ∧ start ≤ day ∧
      between day = ⌊time.value⌋₊ ∧
      ((∃ clock, placed = .ok ⟨day, clock⟩ ∧ hours.opening ≤ clock ∧ clock < hours.closing) ↔
        config.calendar.offset time < hours.opening.reachableLength hours.closing) ∧
      (hours.closing.nano ≤ nanosPerSecond ∨
          hours.opening.isLeap = true ∧ hours.opening.second = hours.closing.second →
        ∃ clock, placed = .ok ⟨day, clock⟩ ∧ hours.opening ≤ clock ∧ clock < hours.closing) ∧
      ∀ error, placed = .error error →
        error = .crossesMidnight hours.opening ⟨config.calendar.offset time⟩ := by
  have opens := (validate_eq_ok_iff.mp accepted).2
  have business : isBusinessTime time = true :=
    isBusinessTime_iff.mpr ⟨finite, nonneg, by rwa [businessTimeLimit_cast]⟩
  dsimp only
  rw [(remembers.place start time).1, Binary64.floor_value nonneg]
  cases step : config.calendar.toBusiness.step start time.wholePart with
  | none =>
    refine .inl ⟨?_, fun day after isBusiness count => ?_⟩
    · exact BusinessCalendar.momentOf_of_exhausted business
        (fun _ _ => TimeOfDay.since_pos opens) step
    · have landed := addBusinessDays?_eq_some_iff.mpr ⟨isBusiness, after, count⟩
      exact nomatch step.symm.trans landed
  | some day =>
    obtain ⟨isBusiness, after, count⟩ := addBusinessDays?_eq_some_iff.mp step
    obtain ⟨workday, noHoliday⟩ := WorkCalendar.isBusinessDay_iff.mp isBusiness
    have within := WorkCalendar.momentOf_within_hours_iff business opens step
    refine .inr ⟨day, workday, noHoliday, after, count, within, fun entered => ?_, fun _ =>
      WorkCalendar.eq_of_momentOf_eq_error business opens step⟩
    rw [within, TimeOfDay.reachableLength_of_le entered]
    exact offsetWithin_lt _ time

/-- Open on workdays from nine until the leap second at the end of the day. -/
def untilLeapSecond : ProjectConfig where
  calendar := { WorkCalendar.standard with
    hours := ⟨WorkCalendar.standard.hours.opening,
      ⟨86399, nanosPerSecond, by decide, by decide, by decide⟩⟩ }
  projectStart := none

/-- Closing at the start of a leap second, times are placed within hours: here the second half of a
Tuesday. -/
theorem place_of_validate_untilLeapSecond :
    untilLeapSecond.validate = .ok () ∧
    ∃ clock, (untilLeapSecond.calendar.toBusiness.place .empty ⟨18631, by decide, by decide⟩
        (.ofRatio false 7 4)).1 = .ok ⟨⟨18632, by decide, by decide⟩, clock⟩ ∧
      untilLeapSecond.calendar.hours.opening ≤ clock ∧
      clock < untilLeapSecond.calendar.hours.closing := by
  have accepted : untilLeapSecond.validate = .ok () := by decide
  have business : isBusinessTime (.ofRatio false 7 4) = true := by decide +kernel
  obtain ⟨finite, nonneg, below⟩ := isBusinessTime_iff.mp business
  rw [businessTimeLimit_cast] at below
  have whole : ⌊(Binary64.ofRatio false 7 4).value⌋₊ = 1 := by
    rw [Binary64.floor_value nonneg]
    decide +kernel
  have tuesday : addBusinessDays? untilLeapSecond.calendar.isBusinessDay ⟨18631, by decide, by decide⟩
      1 = some ⟨18632, by decide, by decide⟩ :=
    addBusinessDays?_eq_some_iff.mpr ⟨by decide, by decide, by decide +kernel⟩
  have placed := place_of_validate ⟨18631, by decide, by decide⟩ accepted
    (BusinessCalendar.remembers_empty _) finite nonneg below
  rw [whole] at placed
  obtain ⟨_, none⟩ | ⟨day, workday, noHoliday, after, count, _, within, _⟩ := placed
  · obtain ⟨isBusiness, after, count⟩ := addBusinessDays?_eq_some_iff.mp tuesday
    exact absurd count (none _ after isBusiness)
  · have landed := addBusinessDays?_eq_some_iff.mpr
      ⟨WorkCalendar.isBusinessDay_iff.mpr ⟨workday, noHoliday⟩, after, count⟩
    obtain rfl := Option.some.inj (tuesday.symm.trans landed)
    exact ⟨accepted, within (.inl (by decide))⟩

/-- Open on workdays from the last second of the day until half of the leap second after it. -/
def withinLeapSecond : ProjectConfig where
  calendar := { WorkCalendar.standard with
    hours := ⟨⟨86399, 0, by decide, TimeOfDay.midnight.nano_lt, by decide⟩,
      ⟨86399, 1500000000, by decide, by decide, by decide⟩⟩ }
  projectStart := none

/-- A closing time within a leap second is accepted, and a time that is before closing by the length
of the day is refused: a second and an eighth after opening, which is on the next day. -/
theorem place_past_midnight :
    TimeOfDay.parse? "23:59:59" = .ok withinLeapSecond.calendar.hours.opening ∧
    TimeOfDay.parse? "23:59:60.5" = .ok withinLeapSecond.calendar.hours.closing ∧
    withinLeapSecond.validate = .ok () ∧ isBusinessTime (.ofRatio false 3 4) = true ∧
    (withinLeapSecond.calendar.toBusiness.place .empty ⟨18631, by decide, by decide⟩
        (.ofRatio false 3 4)).1 =
      .error (.crossesMidnight withinLeapSecond.calendar.hours.opening ⟨1125000000⟩) := by
  have business : isBusinessTime (.ofRatio false 3 4) = true := by decide +kernel
  refine ⟨by cbv, by cbv, by decide, business, ?_⟩
  have landed : withinLeapSecond.calendar.toBusiness.step ⟨18631, by decide, by decide⟩
      (Binary64.ofRatio false 3 4).wholePart = some ⟨18631, by decide, by decide⟩ :=
    addBusinessDays?_eq_some_iff.mpr ⟨by decide, by decide, by decide +kernel⟩
  rw [((BusinessCalendar.remembers_empty _).place _ _).1,
    WorkCalendar.momentOf_of_landed business (by decide) landed]
  decide +kernel

end ProjectConfig

end ProcessFlow
