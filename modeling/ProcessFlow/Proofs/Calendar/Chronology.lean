import ProcessFlow.Proofs.Calendar.BusinessTime

/-! # Business times in order

A later start and a greater business time lead to no earlier moment, whatever the hours of the days
are. Two moments can only be on one day if both are counted from one first business day over one
number of days; then one length measures both, and the greater fraction of it is no earlier.
-/

namespace ProcessFlow

namespace BusinessCalendar

variable {calendar : BusinessCalendar} {cache otherCache : StepCache} {start otherStart : Day}
  {time other : Binary64} {moment later : DateTime}

/-- On any calendar, with any steps remembered, a business time that is no less, after a start that is
no earlier, is placed no earlier. If both are placed on one day, they are counted from one first
business day and have one whole part. -/
theorem place_mono (remembers : calendar.Remembers cache)
    (remembersOther : calendar.Remembers otherCache) (starts : start ≤ otherStart)
    (times : other.atLeast time = true)
    (placed : (calendar.place cache start time).1 = .ok moment)
    (placedOther : (calendar.place otherCache otherStart other).1 = .ok later) :
    moment ≤ later ∧
      (moment.day = later.day → calendar.step start 0 = calendar.step otherStart 0 ∧
        ⌊time.value⌋₊ = ⌊other.value⌋₊) := by
  rw [(remembers.place start time).1] at placed
  rw [(remembersOther.place otherStart other).1] at placedOther
  obtain ⟨anchor, lies⟩ := liesAt_of_momentOf placed
  obtain ⟨otherAnchor, further⟩ := liesAt_of_momentOf placedOther
  have values : time.value ≤ other.value :=
    Binary64.value_le_of_atLeast lies.nonneg further.nonneg times
  refine ⟨lies.mono further starts values, fun same => ?_⟩
  obtain ⟨anchors, whole⟩ := lies.eq_of_same_day further starts values same
  rw [lies.anchored, further.anchored, anchors]
  exact ⟨rfl, whole⟩

/-- Monday to Friday, from nine to five on Mondays and from ten to six on the other days. -/
def laterAfterMonday : BusinessCalendar where
  isBusinessDay := WorkCalendar.standard.isBusinessDay
  hours day :=
    if day.weekday = .monday then WorkCalendar.standard.hours
    else ⟨(TimeOfDay.ofHms? 10 0 0).getD .midnight, (TimeOfDay.ofHms? 18 0 0).getD .midnight⟩

/-- The ninth of January 2021, a Saturday, and the days after. -/
def saturday : Day := ⟨18636, by decide, by decide⟩
def sunday : Day := ⟨18637, by decide, by decide⟩
def monday : Day := ⟨18638, by decide, by decide⟩
def tuesday : Day := ⟨18639, by decide, by decide⟩

/-- An hour of that Tuesday. -/
def tuesdayAt (hour : Nat) : DateTime := ⟨tuesday, (TimeOfDay.ofHms? hour 0 0).getD .midnight⟩

/-- On the weekend before it, the Tuesday is one business day ahead. -/
theorem place_laterAfterMonday {reached : TimeOfDay} (business : isBusinessTime time = true)
    (anchored : laterAfterMonday.step start 0 = some monday)
    (landed : laterAfterMonday.step start time.wholePart = some tuesday)
    (share : shareAfter (laterAfterMonday.hours tuesday).opening
      (laterAfterMonday.hours monday).length.nanoseconds.toNat time = .ok reached) :
    (laterAfterMonday.place .empty start time).1 = .ok ⟨tuesday, reached⟩ := by
  rw [((remembers_empty laterAfterMonday).place start time).1,
    momentOf_of_landed business anchored (by decide +kernel) landed, share]
  rfl

theorem place_mono_laterAfterMonday :
    saturday ≤ sunday ∧ (Binary64.ofRatio false 3 2).atLeast (.ofRatio false 5 4) = true ∧
    (laterAfterMonday.place .empty saturday (.ofRatio false 5 4)).1 = .ok (tuesdayAt 12) ∧
    (laterAfterMonday.place .empty sunday (.ofRatio false 3 2)).1 = .ok (tuesdayAt 14) ∧
    tuesdayAt 12 ≤ tuesdayAt 14 := by
  have starts : saturday ≤ sunday := by decide
  have times : (Binary64.ofRatio false 3 2).atLeast (.ofRatio false 5 4) = true := by decide +kernel
  have placed : (laterAfterMonday.place .empty saturday (.ofRatio false 5 4)).1 =
      .ok (tuesdayAt 12) := by
    apply place_laterAfterMonday (by decide +kernel)
    · exact addBusinessDays?_eq_some_iff.mpr (by decide +kernel)
    · exact addBusinessDays?_eq_some_iff.mpr (by decide +kernel)
    · decide +kernel
  have placedOther : (laterAfterMonday.place .empty sunday (.ofRatio false 3 2)).1 =
      .ok (tuesdayAt 14) := by
    apply place_laterAfterMonday (by decide +kernel)
    · exact addBusinessDays?_eq_some_iff.mpr (by decide +kernel)
    · exact addBusinessDays?_eq_some_iff.mpr (by decide +kernel)
    · decide +kernel
  have remembers := remembers_empty laterAfterMonday
  exact ⟨starts, times, placed, placedOther,
    (place_mono remembers remembers starts times placed placedOther).1⟩

end BusinessCalendar

end ProcessFlow
