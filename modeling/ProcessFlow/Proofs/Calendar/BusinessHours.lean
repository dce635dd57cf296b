import ProcessFlow.Proofs.Calendar.BusinessTime

/-! # Moments within business hours

On a calendar whose business days are all of one length, every business time that has enough business
days left lies within the hours of its day. On other calendars a moment is never before the opening
of its day, but it is before closing only if its offset, which the length of the first business day
decides, is less than the length of its own day.
-/

namespace ProcessFlow

namespace BusinessCalendar

variable {calendar : BusinessCalendar} {cache : StepCache} {start anchor : Day} {time : Binary64}
  {length : Int} {moment : DateTime}

/-! ## Calendars with one length -/

/-- The same positive length on every business day, between ordinary times. -/
structure UniformHours (calendar : BusinessCalendar) (length : Int) : Prop where
  opens : ∀ day, calendar.isBusinessDay day = true → (calendar.hours day).opening.isLeap = false
  closes : ∀ day, calendar.isBusinessDay day = true → (calendar.hours day).closing.isLeap = false
  lasts : ∀ day, calendar.isBusinessDay day = true →
    (calendar.hours day).length.nanoseconds = length
  positive : 0 < length

/-- With one length, a business time lies somewhere if there are enough business days. -/
theorem UniformHours.exists_liesAt {stretch : Nat} (uniform : calendar.UniformHours length)
    (finite : time.isFinite = true) (nonneg : 0 ≤ time.value)
    (below : time.value < businessTimeLimit)
    (enough : ⌊time.value⌋₊ < (start.span stretch).countP calendar.isBusinessDay) :
    ∃ anchor moment, calendar.LiesAt start anchor time moment := by
  obtain ⟨anchor, anchored⟩ : ∃ anchor, calendar.step start 0 = some anchor :=
    exists_addBusinessDays? (Nat.zero_lt_of_lt enough)
  obtain ⟨day, landed⟩ : ∃ day, calendar.step start ⌊time.value⌋₊ = some day :=
    exists_addBusinessDays? enough
  have business := (addBusinessDays?_eq_some_iff.mp landed).1
  have anchorLength := uniform.lasts anchor (addBusinessDays?_eq_some_iff.mp anchored).1
  have dayLength := uniform.lasts day business
  have positive : 0 < (calendar.hours anchor).length.nanoseconds := by
    rw [anchorLength]
    exact uniform.positive
  have small := (calendar.hours anchor).length_lt
  obtain ⟨reached, sum⟩ : ∃ reached, (calendar.hours day).opening.add?
      ⟨offsetWithin (calendar.hours anchor).length.nanoseconds time⟩ = some reached := by
    apply TimeOfDay.exists_add?_of_lt_since (uniform.opens day business)
      (uniform.closes day business) (offsetWithin_nonneg positive small)
    change _ < (calendar.hours day).length.nanoseconds
    rw [dayLength, ← anchorLength]
    exact offsetWithin_lt _ time
  have reaches := TimeOfDay.add?_eq_some_iff.mp sum
  exact ⟨anchor, ⟨day, reached⟩, ⟨finite, nonneg, below, anchored, positive, landed, reaches⟩⟩

/-- From an ordinary opening, a moment is the ordinary time at its offset. -/
theorem LiesAt.position (lies : calendar.LiesAt start anchor time moment)
    (ordinary : (calendar.hours moment.day).opening.isLeap = false) :
    moment.time.isLeap = false ∧ (moment.time.position : Int) =
      (calendar.hours moment.day).opening.position +
        offsetWithin (calendar.hours anchor).length.nanoseconds time := by
  have opens := TimeOfDay.isLeap_eq_false_iff.mp ordinary
  cases lies.reached with
  | ordinary _ after position => exact ⟨TimeOfDay.isLeap_eq_false_iff.mpr after, position⟩
  | within _ _ _ before => omega
  | back before => omega
  | past before => omega

/-- With one length of business days between ordinary times, a business time that has enough
business days left lies on the business day with that many before it, at the rounded and cut share
of the length after its opening, and before its closing. -/
theorem place_of_uniformHours (start : Day) (stretch : Nat) (remembers : calendar.Remembers cache)
    (uniform : calendar.UniformHours length) (finite : time.isFinite = true)
    (nonneg : 0 ≤ time.value) (below : time.value < 2 ^ 32 - 1)
    (enough : ⌊time.value⌋₊ < (start.span stretch).countP calendar.isBusinessDay) :
    ∃ moment, (calendar.place cache start time).1 = .ok moment ∧
      calendar.isBusinessDay moment.day = true ∧ start ≤ moment.day ∧
      businessDaysBetween calendar.isBusinessDay start moment.day = ⌊time.value⌋₊ ∧
      time.fraction.value = Int.fract time.value ∧
      0 ≤ ((Binary64.ofInt length).mul time.fraction).value ∧
      moment.time.isLeap = false ∧
      (moment.time.position : Int) = (calendar.hours moment.day).opening.position +
        min ⌊((Binary64.ofInt length).mul time.fraction).value⌋ (length - 1) ∧
      (calendar.hours moment.day).opening ≤ moment.time ∧
      moment.time < (calendar.hours moment.day).closing ∧
      ⌊time.value⌋₊ < 2 ^ 32 ∧ 0 ≤ length - 1 := by
  have positive := uniform.positive
  obtain ⟨anchor, moment, lies⟩ :=
    uniform.exists_liesAt finite nonneg (by rwa [businessTimeLimit_cast]) enough
  obtain ⟨business, before, between⟩ := addBusinessDays?_eq_some_iff.mp lies.landed
  have anchorLength := uniform.lasts anchor (addBusinessDays?_eq_some_iff.mp lies.anchored).1
  have dayLength := uniform.lasts moment.day business
  have small : length < 2 ^ 53 := by
    rw [← dayLength]
    exact BusinessHours.length_lt _
  obtain ⟨ordinary, position⟩ := lies.position (uniform.opens moment.day business)
  have closes := lies.lt_closing_iff (uniform.closes moment.day business)
  rw [anchorLength] at position closes
  rw [dayLength] at closes
  have whole : ⌊time.value⌋₊ < 2 ^ 32 := by
    rw [Nat.floor_lt nonneg]
    norm_num at below ⊢
    linarith
  refine ⟨moment, ?_, business, before, between, Binary64.value_fraction nonneg,
    product_nonneg positive small, ordinary, position, lies.opening_le,
    closes.mpr (offsetWithin_lt length time), whole, by omega⟩
  rw [(remembers.place start time).1]
  exact lies.momentOf

/-- A day and a half after a Saturday is on Tuesday at one. -/
theorem place_of_uniformHours_standard :
    ∃ moment, (WorkCalendar.standard.toBusiness.place .empty ⟨18629, by decide, by decide⟩
        (.ofRatio false 3 2)).1 = .ok moment ∧
      businessDaysBetween WorkCalendar.standard.isBusinessDay ⟨18629, by decide, by decide⟩
        moment.day = 1 ∧
      moment.time.position = 13 * 3600 * nanosPerSecond := by
  have business : isBusinessTime (.ofRatio false 3 2) = true := by decide +kernel
  obtain ⟨finite, nonneg, below⟩ := isBusinessTime_iff.mp business
  rw [businessTimeLimit_cast] at below
  have whole : ⌊(Binary64.ofRatio false 3 2).value⌋₊ = 1 := by
    rw [Binary64.floor_value nonneg]
    decide +kernel
  have lasts : WorkCalendar.standard.hours.length.nanoseconds = 8 * 3600 * nanosPerSecond := by
    decide +kernel
  have uniform : WorkCalendar.standard.toBusiness.UniformHours (8 * 3600 * nanosPerSecond) :=
    ⟨fun _ _ => rfl, fun _ _ => rfl, fun _ _ => lasts, by decide⟩
  obtain ⟨moment, placed, _, _, between, _, _, _, position, _⟩ :=
    place_of_uniformHours ⟨18629, by decide, by decide⟩ 7
      (remembers_empty WorkCalendar.standard.toBusiness) uniform finite nonneg below
      (by rw [whole]; decide +kernel)
  refine ⟨moment, placed, between.trans whole, ?_⟩
  have offset : offsetWithin (8 * 3600 * nanosPerSecond) (.ofRatio false 3 2) = _ :=
    offsetWithin_eq uniform.positive (by decide)
  have share : (Binary64.ofRatio false 3 2).shareOf ((8 * 3600 * nanosPerSecond : Int)).toNat =
    4 * 3600 * nanosPerSecond := by decide +kernel
  have opening : WorkCalendar.standard.hours.opening.position = 9 * 3600 * nanosPerSecond := by
    decide +kernel
  have hours : WorkCalendar.standard.toBusiness.hours moment.day = WorkCalendar.standard.hours := rfl
  rw [offsetWithin, share] at offset
  rw [offset, hours, opening] at position
  unfold nanosPerSecond at *
  omega

/-! ## Other calendars -/

/-- On any calendar, a moment is not before the opening of its day. Its offset from there is measured
by the length of the first business day, and it is before an ordinary closing time exactly if that
offset is less than the length of its own day. -/
theorem bounds_of_place (remembers : calendar.Remembers cache)
    (placed : (calendar.place cache start time).1 = .ok moment) :
    (calendar.hours moment.day).opening ≤ moment.time ∧
      ∃ anchor, calendar.isBusinessDay anchor = true ∧ start ≤ anchor ∧
        businessDaysBetween calendar.isBusinessDay start anchor = 0 ∧
        0 < (calendar.hours anchor).length.nanoseconds ∧
        ((calendar.hours moment.day).closing.isLeap = false →
          (moment.time < (calendar.hours moment.day).closing ↔
            offsetWithin (calendar.hours anchor).length.nanoseconds time <
              (calendar.hours moment.day).length.nanoseconds)) := by
  rw [(remembers.place start time).1] at placed
  obtain ⟨anchor, lies⟩ := liesAt_of_momentOf placed
  obtain ⟨business, before, between⟩ := addBusinessDays?_eq_some_iff.mp lies.anchored
  exact ⟨lies.opening_le, anchor, business, before, between, lies.positive, lies.lt_closing_iff⟩

/-- The fourth of January 2021, a Monday. -/
def openMonday : Day := ⟨18631, by decide, by decide⟩

/-- The day after. -/
def closedTuesday : Day := ⟨18632, by decide, by decide⟩

/-- Every day is a business day from nine to five, but on one Tuesday noon is opening and closing. -/
def closedOnTuesday : BusinessCalendar where
  isBusinessDay _ := true
  hours day :=
    if day = closedTuesday then
      ⟨⟨43200, 0, by decide, TimeOfDay.midnight.nano_lt, by decide⟩,
        ⟨43200, 0, by decide, TimeOfDay.midnight.nano_lt, by decide⟩⟩
    else WorkCalendar.standard.hours

/-- Four hours after noon, which are half of Monday. -/
def fourOnTuesday : DateTime := ⟨closedTuesday, ⟨57600, 0, by decide, TimeOfDay.midnight.nano_lt, by decide⟩⟩

theorem closedOnTuesday_liesAt :
    closedOnTuesday.LiesAt openMonday openMonday (.ofRatio false 3 2) fourOnTuesday := by
  have business : isBusinessTime (.ofRatio false 3 2) = true := by decide +kernel
  obtain ⟨finite, nonneg, below⟩ := isBusinessTime_iff.mp business
  have lasts : (closedOnTuesday.hours openMonday).length.nanoseconds =
    8 * 3600 * nanosPerSecond := by decide +kernel
  have positive : 0 < (closedOnTuesday.hours openMonday).length.nanoseconds := by
    rw [lasts]
    decide
  have offset := @offsetWithin_eq (.ofRatio false 3 2) _ positive (BusinessHours.length_lt _)
  have share : (Binary64.ofRatio false 3 2).shareOf
    (closedOnTuesday.hours openMonday).length.nanoseconds.toNat = 4 * 3600 * nanosPerSecond := by
      decide +kernel
  refine ⟨finite, nonneg, below, ?_, positive, ?_, ?_⟩
  · exact addBusinessDays?_eq_some_iff.mpr ⟨rfl, Std.le_refl _, businessDaysBetween_self _ _⟩
  · rw [Binary64.floor_value nonneg]
    exact addBusinessDays?_eq_some_iff.mpr ⟨rfl, by decide, by decide +kernel⟩
  · rw [offset, share, lasts]
    exact .ordinary (by decide) (by decide) (by decide +kernel)

theorem closedOnTuesday_place :
    (closedOnTuesday.place .empty openMonday (.ofRatio false 3 2)).1 = .ok fourOnTuesday := by
  rw [((remembers_empty closedOnTuesday).place openMonday _).1]
  exact closedOnTuesday_liesAt.momentOf

/-- The moment on the closed Tuesday is not before its opening, and it is not before closing, because
its offset is not less than the length of the day. -/
theorem bounds_of_place_closedOnTuesday :
    (closedOnTuesday.hours closedTuesday).opening ≤ fourOnTuesday.time ∧
      ∃ anchor, closedOnTuesday.isBusinessDay anchor = true ∧ openMonday ≤ anchor ∧
        ¬offsetWithin (closedOnTuesday.hours anchor).length.nanoseconds (.ofRatio false 3 2) <
          (closedOnTuesday.hours closedTuesday).length.nanoseconds := by
  obtain ⟨opening, anchor, business, before, _, _, closing⟩ :=
    bounds_of_place (remembers_empty closedOnTuesday) closedOnTuesday_place
  have outside : ¬fourOnTuesday.time < (closedOnTuesday.hours closedTuesday).closing := by decide
  exact ⟨opening, anchor, business, before, (closing rfl).not.mp outside⟩

/-- A time is placed on a day without business hours, and no time of that day is within them. -/
theorem place_outside_hours :
    (closedOnTuesday.place .empty openMonday (.ofRatio false 3 2)).1 = .ok fourOnTuesday ∧
      ¬fourOnTuesday.time < (closedOnTuesday.hours fourOnTuesday.day).closing ∧
      (closedOnTuesday.hours fourOnTuesday.day).length.nanoseconds ≤ 0 :=
  ⟨closedOnTuesday_place, by decide, by decide⟩

end BusinessCalendar

end ProcessFlow
