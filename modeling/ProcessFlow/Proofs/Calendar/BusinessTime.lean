import ProcessFlow.Proofs.Calendar.Memory
import ProcessFlow.Proofs.Calendar.TimeOfDay
import ProcessFlow.Proofs.Number.Value

/-! # Where a business time lies

A moment of business time is on the business day with as many business days before it as the whole
part says, at an offset from its opening. The offset is a share of the length of the first business
day on or after the start. On calendars with the same hours on every business day every moment is
within the hours of its day; otherwise it is before closing exactly if the offset is less than the
length of the day it is on.
-/

namespace ProcessFlow

variable {time : Binary64} {length : Int} {opening reached : TimeOfDay}

theorem isBusinessTime_iff : isBusinessTime time = true ↔
    time.isFinite = true ∧ 0 ≤ time.value ∧ time.value < businessTimeLimit := by
  have small : businessTimeLimit < 2 ^ 53 := by decide
  have limit : (Binary64.ofNat businessTimeLimit).value = businessTimeLimit :=
    Binary64.value_ofNat small
  have number : (Binary64.ofNat businessTimeLimit).isNaN = false :=
    Binary64.isNaN_of_isFinite (Binary64.ofNat_exact small).1
  have positive : 0 ≤ (Binary64.ofNat businessTimeLimit).value :=
    Binary64.value_nonneg_iff.mpr (.inl rfl)
  simp only [isBusinessTime, Binary64.less, number, Bool.not_false, Bool.and_true,
    Bool.and_eq_true, decide_eq_true_eq, Bool.not_eq_true', Binary64.rank_nonneg_iff, and_assoc]
  constructor
  · rintro ⟨finite, nonneg, _, less⟩
    rw [Binary64.rank_lt_rank_iff nonneg positive, limit] at less
    exact ⟨finite, nonneg, less⟩
  · rintro ⟨finite, nonneg, less⟩
    rw [← limit, ← Binary64.rank_lt_rank_iff nonneg positive] at less
    exact ⟨finite, nonneg, Binary64.isNaN_of_isFinite finite, less⟩

theorem businessTimeLimit_cast : (businessTimeLimit : ℚ) = 2 ^ 32 - 1 := by
  norm_num [businessTimeLimit]

/-- The offset of a time within a length: the floor of the rounded product of the length and the
fraction, kept below the length. -/
def offsetWithin (length : Int) (time : Binary64) : Int :=
  min ⌊((Binary64.ofInt length).mul time.fraction).value⌋ (length - 1)

theorem ofInt_of_pos (positive : 0 < length) : Binary64.ofInt length = .ofNat length.toNat := by
  have sign : decide (length < 0) = false := decide_eq_false (by omega)
  have size : length.natAbs = length.toNat := by omega
  rw [Binary64.ofInt, sign, size, Binary64.ofNat]

/-- A length and a fraction have a product that is not negative. -/
theorem product_nonneg (positive : 0 < length) (small : length < 2 ^ 53) :
    0 ≤ ((Binary64.ofInt length).mul time.fraction).value := by
  have finite : (Binary64.ofNat length.toNat).isFinite = true := (Binary64.ofNat_exact (by omega)).1
  rw [ofInt_of_pos positive, Binary64.mul_of_isFinite finite time.fraction_exact.1]
  exact Binary64.value_nonneg_iff.mpr (.inl rfl)

theorem offsetWithin_eq (positive : 0 < length) (small : length < 2 ^ 53) :
    offsetWithin length time = min (time.shareOf length.toNat : Int) ((length.toNat : Int) - 1) := by
  have share : time.shareOf length.toNat =
    ⌊((Binary64.ofNat length.toNat).mul time.fraction).value⌋₊ := Binary64.shareOf_eq (by omega)
  have product : 0 ≤ ((Binary64.ofInt length).mul time.fraction).value :=
    product_nonneg positive small
  rw [ofInt_of_pos positive] at product
  rw [offsetWithin, ofInt_of_pos positive, ← Int.natCast_floor_eq_floor product, ← share,
    Int.toNat_of_nonneg (Int.le_of_lt positive)]

theorem offsetWithin_nonneg (positive : 0 < length) (small : length < 2 ^ 53) :
    0 ≤ offsetWithin length time := by
  rw [offsetWithin_eq positive small]
  omega

theorem offsetWithin_lt (length : Int) (time : Binary64) : offsetWithin length time < length := by
  have least : offsetWithin length time ≤ length - 1 := min_le_right _ _
  omega

/-- Greater fractions have offsets that are no less. -/
theorem offsetWithin_mono {other : Binary64} (positive : 0 < length) (small : length < 2 ^ 53)
    (le : time.fractionUnits ≤ other.fractionUnits) :
    offsetWithin length time ≤ offsetWithin length other := by
  rw [offsetWithin_eq positive small, offsetWithin_eq positive small]
  have share := Binary64.shareOf_mono length.toNat le
  omega

theorem offsetWithin_of_whole (positive : 0 < length) (small : length < 2 ^ 53)
    (whole : time.fractionUnits = 0) : offsetWithin length time = 0 := by
  have share : time.shareOf length.toNat = 0 := by
    rw [Binary64.shareOf, whole, Nat.mul_zero]
    decide +kernel
  rw [offsetWithin_eq positive small, share]
  omega

namespace BusinessHours

/-- Lengths of business days are doubles. -/
theorem length_lt (hours : BusinessHours) : hours.length.nanoseconds < 2 ^ 53 := by
  have opens := hours.opening.second_lt
  have closes := hours.closing.second_lt
  have nano := hours.closing.nano_lt
  unfold length TimeOfDay.since TimeOfDay.position secondsPerDay nanosPerSecond at *
  split
  · dsimp only
    omega
  · split <;> dsimp only <;> omega

theorem standard_length_pos : 0 < WorkCalendar.standard.hours.length.nanoseconds := by
  decide +kernel

end BusinessHours

theorem shareAfter_eq_ok_iff (positive : 0 < length) (small : length < 2 ^ 53) :
    shareAfter opening length.toNat time = .ok reached ↔
      opening.Reaches (offsetWithin length time) reached := by
  rw [offsetWithin_eq positive small, shareAfter]
  rw [← TimeOfDay.add?_eq_some_iff]
  split
  · rename_i sum found
    rw [found, Except.ok.injEq, Option.some.injEq]
  · rename_i found
    rw [found]
    simp

/-- The one error of a share after an opening is that it leaves the day. -/
theorem eq_of_shareAfter_eq_error {error : CalendarError} (positive : 0 < length)
    (small : length < 2 ^ 53) (failed : shareAfter opening length.toNat time = .error error) :
    error = .crossesMidnight opening ⟨offsetWithin length time⟩ := by
  rw [offsetWithin_eq positive small]
  unfold shareAfter at failed
  dsimp only at failed
  split at failed
  · cases failed
  · cases failed
    rfl

namespace BusinessCalendar

variable {calendar : BusinessCalendar} {cache : StepCache} {start anchor : Day} {moment : DateTime}

/-- A business time after a start lies at a moment. The anchor is the first business day on or after
the start; its length decides the offset from the opening of the day that the moment is on. -/
structure LiesAt (calendar : BusinessCalendar) (start anchor : Day) (time : Binary64)
    (moment : DateTime) : Prop where
  finite : time.isFinite = true
  nonneg : 0 ≤ time.value
  below : time.value < businessTimeLimit
  anchored : calendar.step start 0 = some anchor
  positive : 0 < (calendar.hours anchor).length.nanoseconds
  landed : calendar.step start ⌊time.value⌋₊ = some moment.day
  reached : (calendar.hours moment.day).opening.Reaches
    (offsetWithin (calendar.hours anchor).length.nanoseconds time) moment.time

/-- A business time is placed on the day that its whole part leads to. -/
theorem momentOf_of_landed {day : Day} (business : isBusinessTime time = true)
    (anchored : calendar.step start 0 = some anchor)
    (positive : 0 < (calendar.hours anchor).length.nanoseconds)
    (landed : calendar.step start time.wholePart = some day) :
    calendar.momentOf start time =
      (shareAfter (calendar.hours day).opening (calendar.hours anchor).length.nanoseconds.toNat
        time).map (DateTime.mk day) := by
  have opens : ¬(calendar.hours anchor).length.nanoseconds ≤ 0 := Int.not_le.mpr positive
  simp only [momentOf, business, Bool.not_true, Bool.false_eq_true, if_false, anchored, opens, landed]

/-- A business time for which too few business days are left is past the last day. -/
theorem momentOf_of_exhausted (business : isBusinessTime time = true)
    (positive : ∀ anchor, calendar.step start 0 = some anchor →
      0 < (calendar.hours anchor).length.nanoseconds)
    (ended : calendar.step start time.wholePart = none) :
    calendar.momentOf start time = .error .pastLastDay := by
  rw [momentOf, business]
  cases anchored : calendar.step start 0 with
  | none => rfl
  | some anchor =>
    have opens := Int.not_le.mpr (positive anchor anchored)
    simp only [Bool.not_true, Bool.false_eq_true, if_false, opens, ended]

theorem LiesAt.momentOf (lies : calendar.LiesAt start anchor time moment) :
    calendar.momentOf start time = .ok moment := by
  have business : isBusinessTime time = true :=
    isBusinessTime_iff.mpr ⟨lies.finite, lies.nonneg, lies.below⟩
  have landed := lies.landed
  rw [Binary64.floor_value lies.nonneg] at landed
  have share := (shareAfter_eq_ok_iff lies.positive (BusinessHours.length_lt _)).mpr lies.reached
  rw [momentOf_of_landed business lies.anchored lies.positive landed, share]
  rfl

theorem liesAt_of_momentOf (answered : calendar.momentOf start time = .ok moment) :
    ∃ anchor, calendar.LiesAt start anchor time moment := by
  unfold momentOf at answered
  split at answered
  · cases answered
  rename_i business
  rw [Bool.not_eq_true', Bool.not_eq_false] at business
  obtain ⟨finite, nonneg, below⟩ := isBusinessTime_iff.mp business
  split at answered
  · cases answered
  rename_i anchor anchored
  dsimp only at answered
  split at answered
  · cases answered
  rename_i opens
  have positive := Int.not_le.mp opens
  split at answered
  · cases answered
  rename_i day landed
  cases share : shareAfter (calendar.hours day).opening
      (calendar.hours anchor).length.nanoseconds.toNat time with
  | error failure =>
    rw [share] at answered
    cases answered
  | ok reached =>
    rw [share] at answered
    cases answered
    refine ⟨anchor, finite, nonneg, below, anchored, positive, ?_, ?_⟩
    · rwa [Binary64.floor_value nonneg]
    · exact (shareAfter_eq_ok_iff positive (BusinessHours.length_lt _)).mp share

/-- A calendar gives a moment exactly if the business time lies there. -/
theorem momentOf_eq_ok_iff : calendar.momentOf start time = .ok moment ↔
    ∃ anchor, calendar.LiesAt start anchor time moment :=
  ⟨liesAt_of_momentOf, fun ⟨_, lies⟩ => lies.momentOf⟩

/-- The moment is on a business day. -/
theorem LiesAt.isBusinessDay (lies : calendar.LiesAt start anchor time moment) :
    calendar.isBusinessDay moment.day = true :=
  (addBusinessDays?_eq_some_iff.mp lies.landed).1

theorem LiesAt.offset_nonneg (lies : calendar.LiesAt start anchor time moment) :
    0 ≤ offsetWithin (calendar.hours anchor).length.nanoseconds time :=
  offsetWithin_nonneg lies.positive (calendar.hours anchor).length_lt

/-- No moment is before the opening of its day. -/
theorem LiesAt.opening_le (lies : calendar.LiesAt start anchor time moment) :
    (calendar.hours moment.day).opening ≤ moment.time :=
  lies.reached.le lies.offset_nonneg

/-- A moment is before an ordinary closing time exactly if its offset is less than the length of its
day. -/
theorem LiesAt.lt_closing_iff (lies : calendar.LiesAt start anchor time moment)
    (ordinary : (calendar.hours moment.day).closing.isLeap = false) :
    moment.time < (calendar.hours moment.day).closing ↔
      offsetWithin (calendar.hours anchor).length.nanoseconds time <
        (calendar.hours moment.day).length.nanoseconds :=
  lies.reached.lt_closing_iff lies.offset_nonneg ordinary

/-- A whole number of days lies at an opening. -/
theorem liesAt_opening {day : Day} (business : isBusinessTime time = true)
    (whole : time.fractionUnits = 0) (anchored : calendar.step start 0 = some anchor)
    (positive : 0 < (calendar.hours anchor).length.nanoseconds)
    (landed : calendar.step start ⌊time.value⌋₊ = some day) :
    calendar.LiesAt start anchor time ⟨day, (calendar.hours day).opening⟩ := by
  obtain ⟨finite, nonneg, below⟩ := isBusinessTime_iff.mp business
  refine ⟨finite, nonneg, below, anchored, positive, landed, ?_⟩
  rw [offsetWithin_of_whole positive (BusinessHours.length_lt _) whole]
  exact TimeOfDay.reaches_zero _

section Chronology

variable {otherStart otherAnchor : Day} {other : Binary64} {later : DateTime}

/-- If a business time that is no less, after a start that is no earlier, lies on the same day, both
are counted from one first business day and have one whole part. -/
theorem LiesAt.eq_of_same_day (lies : calendar.LiesAt start anchor time moment)
    (further : calendar.LiesAt otherStart otherAnchor other later) (starts : start ≤ otherStart)
    (le : time.value ≤ other.value) (same : moment.day = later.day) :
    anchor = otherAnchor ∧ ⌊time.value⌋₊ = ⌊other.value⌋₊ := by
  have landed := lies.landed
  rw [same] at landed
  obtain ⟨whole, idle⟩ :=
    eq_of_addBusinessDays? starts (Nat.floor_mono le) landed further.landed
  have anchored : calendar.step start 0 = calendar.step otherStart 0 :=
    addBusinessDays?_of_idle starts idle 0
  rw [lies.anchored, further.anchored, Option.some.injEq] at anchored
  exact ⟨anchored, whole⟩

/-- A business time that is no less, after a start that is no earlier, lies no earlier. -/
theorem LiesAt.mono (lies : calendar.LiesAt start anchor time moment)
    (further : calendar.LiesAt otherStart otherAnchor other later) (starts : start ≤ otherStart)
    (le : time.value ≤ other.value) : moment ≤ later := by
  have days : moment.day ≤ later.day :=
    le_of_addBusinessDays? starts (Nat.floor_mono le) lies.landed further.landed
  by_cases same : moment.day = later.day
  · -- On one day the lengths and the whole parts are equal, so the fractions decide.
    obtain ⟨rfl, whole⟩ := lies.eq_of_same_day further starts le same
    have reached := lies.reached
    rw [same] at reached
    refine .inr ⟨same, ?_⟩
    apply reached.mono further.reached
    apply offsetWithin_mono lies.positive (BusinessHours.length_lt _)
    exact Binary64.fractionUnits_le lies.nonneg le whole
  · exact .inl (Std.lt_of_le_of_ne days same)

end Chronology

end BusinessCalendar

end ProcessFlow
