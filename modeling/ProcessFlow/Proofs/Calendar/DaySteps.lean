import ProcessFlow.Proofs.Calendar.DaySearch

/-! # Steps over business days

A step over a count of business days can be taken in two parts. Both ways lead to the same day, and
one of them runs out of days exactly if the other does; this holds of the counts and of the searches
in 32 bits alike. A greater count leads to a later day and a later start to no earlier one, and what
comes later can only fail where the other has not failed. Two starts lead to one day exactly if there
is no business day from the first of them on before the second.
-/

namespace ProcessFlow

variable {isBusinessDay : Day → Bool} {day later last other : Day}

/-! ## Two starts -/

/-- There is nothing to count exactly if no day of the stretch is a business day. -/
theorem businessDaysBetween_eq_zero_iff : businessDaysBetween isBusinessDay day last = 0 ↔
    ∀ between, day ≤ between → between < last → isBusinessDay between = false := by
  rw [businessDaysBetween, List.countP_eq_zero]
  apply forall_congr'
  intro between
  rw [Day.mem_span, and_imp, Bool.not_eq_true, Day.le_iff, Day.lt_iff]
  apply imp_congr_right
  intro after
  apply imp_congr_left
  omega

/-- Where a greater count from a later day ends, a lesser one from an earlier day ends too. -/
theorem exists_addBusinessDays?_of_le {count more : Nat} (starts : day ≤ later)
    (counts : count ≤ more) (reached : addBusinessDays? isBusinessDay later more = some last) :
    ∃ earlier, addBusinessDays? isBusinessDay day count = some earlier ∧ earlier ≤ last := by
  cases ended : addBusinessDays? isBusinessDay day count with
  | some earlier => exact ⟨earlier, rfl, le_of_addBusinessDays? starts counts ended reached⟩
  | none =>
    have within : businessDaysFrom isBusinessDay later ⊆ businessDaysFrom isBusinessDay day :=
      fun _ member => ⟨Std.le_trans starts member.1, member.2⟩
    have size := Set.ncard_le_ncard within (Set.toFinite _)
    have few := addBusinessDays?_eq_none_iff.mp ended
    have failed : addBusinessDays? isBusinessDay later more = none :=
      addBusinessDays?_eq_none_iff.mpr (by omega)
    rw [reached] at failed
    cases failed

/-- Counts from two starts end on the same day exactly if no business day lies between the starts. -/
theorem addBusinessDays?_eq_iff_idle {count : Nat} (starts : day ≤ later)
    (reached : addBusinessDays? isBusinessDay day count = some last)
    (further : addBusinessDays? isBusinessDay later count = some other) :
    last = other ↔ ∀ between, day ≤ between → between < later → isBusinessDay between = false := by
  rw [← businessDaysBetween_eq_zero_iff]
  constructor
  · rintro rfl
    exact (eq_of_addBusinessDays? starts (Nat.le_refl count) reached further).2
  · intro idle
    rw [addBusinessDays?_of_idle starts idle, further, Option.some.injEq] at reached
    exact reached.symm

/-! ## Counts in two parts -/

variable {count more : UInt32}

/-- In 32 bits, too, counting in two parts is counting once, as long as the sum fits. -/
theorem addBusinessDays?_toNat_add (fits : count.toNat + more.toNat < 2 ^ 32) :
    addBusinessDays? isBusinessDay day (count + more).toNat =
      (addBusinessDays? isBusinessDay day count.toNat).bind
        (addBusinessDays? isBusinessDay · more.toNat) := by
  rw [UInt32.toNat_add, Nat.mod_eq_of_lt fits, addBusinessDays?_add]

namespace DaySearch

/-- The search from one day comes to its count on another. -/
def ComesTo (isBusinessDay : Day → Bool) (count : UInt32) (day last : Day) : Prop :=
  Leads isBusinessDay count (.rolling day) (.counting last count)

/-- The search from a day has to go on from the last representable day. -/
def RunsOut (isBusinessDay : Day → Bool) (count : UInt32) (day : Day) : Prop :=
  ∃ final, Leads isBusinessDay count (.rolling day) final ∧ Stuck isBusinessDay count final

theorem comesTo_iff : ComesTo isBusinessDay count day last ↔
    addBusinessDays? isBusinessDay day count.toNat = some last := leads_counting_iff

theorem runsOut_iff : RunsOut isBusinessDay count day ↔
    addBusinessDays? isBusinessDay day count.toNat = none := exists_stuck_iff

theorem comesTo_add (fits : count.toNat + more.toNat < 2 ^ 32) :
    ComesTo isBusinessDay (count + more) day last ↔
      ∃ middle, ComesTo isBusinessDay count day middle ∧ ComesTo isBusinessDay more middle last := by
  simp only [comesTo_iff, addBusinessDays?_toNat_add fits, Option.bind_eq_some_iff]

/-- A search runs out exactly if its first part does, or its second part from where the first one has
come to. -/
theorem runsOut_add (fits : count.toNat + more.toNat < 2 ^ 32) :
    RunsOut isBusinessDay (count + more) day ↔ RunsOut isBusinessDay count day ∨
      ∃ middle, ComesTo isBusinessDay count day middle ∧ RunsOut isBusinessDay more middle := by
  simp only [runsOut_iff, comesTo_iff, addBusinessDays?_toNat_add fits]
  cases addBusinessDays? isBusinessDay day count.toNat with
  | none => simp
  | some middle => simp

/-! ## How long a search takes -/

variable {state next : DaySearch}

def standsOn : DaySearch → Day
  | rolling day => day
  | counting day _ => day

/-- How far a search has come. It takes one step to begin to count, on the same day. -/
def position : DaySearch → Int
  | rolling day => day.number
  | counting day _ => day.number + 1

theorem Step.position (step : Step isBusinessDay count state next) :
    next.position = state.position + 1 := by
  cases step with
  | roll _ onward => exact Day.next?_eq_some_iff.mp onward
  | begin _ => rfl
  | pass _ onward => exact congrArg (· + 1) (Day.next?_eq_some_iff.mp onward)

/-- Every step of a search is one place further. -/
theorem position_of_isChain {trace : List DaySearch}
    (run : (state :: trace).IsChain (Step isBusinessDay count)) :
    ((state :: trace).getLast (List.cons_ne_nil _ _)).position = state.position + trace.length := by
  induction trace generalizing state with
  | nil => simp
  | cons next rest ih =>
    obtain ⟨step, further⟩ := List.isChain_cons_cons.mp run
    rw [List.getLast_cons_cons, ih further, step.position, List.length_cons]
    omega

/-- A search does not go beyond the day that its count ends on. -/
theorem Stands.standsOn_le (stands : Stands isBusinessDay day count state)
    (reached : addBusinessDays? isBusinessDay day count.toNat = some last) : state.standsOn ≤ last := by
  obtain ⟨business, before, between⟩ := addBusinessDays?_eq_some_iff.mp reached
  apply Std.not_lt.mp
  intro beyond
  -- The last day lies behind, so that the search has been to more business days than it counts.
  have more := businessDaysBetween_lt business before beyond
  cases stands with
  | rolling _ passed =>
    simp only [standsOn] at more
    omega
  | counting _ within passed unended =>
    simp only [standsOn] at more
    rcases unended with less | here
    · rw [UInt32.lt_iff_toNat_lt] at less
      split at passed <;> omega
    · rw [UInt32.le_iff_toNat_le] at within
      rw [if_pos here] at passed
      omega

/-- A search takes a step for each day up to the one that its count ends on, and one to begin to
count. -/
theorem length_of_isChain {trace : List DaySearch}
    (reached : addBusinessDays? isBusinessDay day count.toNat = some last)
    (run : (rolling day :: trace).IsChain (Step isBusinessDay count)) :
    (trace.length : Int) ≤ last.number - day.number + 1 := by
  have leads := List.relationReflTransGen_of_exists_isChain_cons trace run rfl
  have bound := Day.le_iff.mp ((stands_of_leads leads).standsOn_le reached)
  have position := position_of_isChain run
  generalize (rolling day :: trace).getLast _ = final at bound position
  have start : (rolling day).position = day.number := rfl
  cases final with
  | rolling other =>
    simp only [standsOn, DaySearch.position] at bound position
    omega
  | counting other _ =>
    simp only [standsOn, DaySearch.position] at bound position
    omega

end DaySearch

open DaySearch

/-- A step over the sum of two counts is the step over the one and then over the other, for the days
reached and for running out of days. A greater count leads to a later day and a later start to no
earlier day, and there is such an earlier day whenever there is the later one. From two starts the
same count leads to one day exactly if no business day lies from the first on before the second. -/
theorem addBusinessDays?_in_parts (isBusinessDay : Day → Bool) :
    (∀ (day : Day) (count more : UInt32), count.toNat + more.toNat < 2 ^ 32 →
      addBusinessDays? isBusinessDay day (count + more).toNat =
        (addBusinessDays? isBusinessDay day count.toNat).bind
          (addBusinessDays? isBusinessDay · more.toNat) ∧
      (∀ last, ComesTo isBusinessDay (count + more) day last ↔ ∃ middle,
        ComesTo isBusinessDay count day middle ∧ ComesTo isBusinessDay more middle last) ∧
      (RunsOut isBusinessDay (count + more) day ↔ RunsOut isBusinessDay count day ∨ ∃ middle,
        ComesTo isBusinessDay count day middle ∧ RunsOut isBusinessDay more middle)) ∧
    (∀ day count more last, count < more → addBusinessDays? isBusinessDay day more = some last →
      ∃ earlier, addBusinessDays? isBusinessDay day count = some earlier ∧ earlier < last) ∧
    (∀ day later count last, day ≤ later → addBusinessDays? isBusinessDay later count = some last →
      ∃ earlier, addBusinessDays? isBusinessDay day count = some earlier ∧ earlier ≤ last) ∧
    ∀ day later count last other, day ≤ later →
      addBusinessDays? isBusinessDay day count = some last →
      addBusinessDays? isBusinessDay later count = some other →
      (last = other ↔ ∀ between, day ≤ between → between < later → isBusinessDay between = false) := by
  refine ⟨fun day count more fits => ?_, ?_, ?_, ?_⟩
  · exact ⟨addBusinessDays?_toNat_add fits, fun last => comesTo_add fits, runsOut_add fits⟩
  · intro day count more last less reached
    obtain ⟨earlier, before, _⟩ :=
      exists_addBusinessDays?_of_le (Std.le_refl day) (Nat.le_of_lt less) reached
    exact ⟨earlier, before, lt_of_addBusinessDays? before reached less⟩
  · intro day later count last starts reached
    exact exists_addBusinessDays?_of_le starts (Nat.le_refl count) reached
  · intro day later count last other starts reached further
    exact addBusinessDays?_eq_iff_idle starts reached further

def twoDaysBefore : Day := ⟨lastDayNumber - 2, by decide, by decide⟩

/-- Where only the last two days are business days, two counts of one from three days before the end
run out in the second part. The day after that start is no different a start, because no business
day lies between. -/
theorem addBusinessDays?_in_parts_lastTwoDays :
    (1 : UInt32).toNat + (1 : UInt32).toNat < 2 ^ 32 ∧ RunsOut lastTwoDays (1 + 1) threeDaysBefore ∧
    addBusinessDays? lastTwoDays threeDaysBefore 1 = some finalDay ∧
    addBusinessDays? lastTwoDays twoDaysBefore 1 = some finalDay ∧ threeDaysBefore ≤ twoDaysBefore ∧
    (∃ earlier, addBusinessDays? lastTwoDays threeDaysBefore 0 = some earlier ∧ earlier < finalDay) ∧
    (∃ earlier, addBusinessDays? lastTwoDays threeDaysBefore 1 = some earlier ∧ earlier ≤ finalDay) ∧
    ∀ between, threeDaysBefore ≤ between → between < twoDaysBefore → lastTwoDays between = false := by
  have fits : (1 : UInt32).toNat + (1 : UInt32).toNat < 2 ^ 32 := by decide
  have reached : addBusinessDays? lastTwoDays threeDaysBefore 1 = some finalDay :=
    addBusinessDays?_eq_some_iff.mpr (by decide +kernel)
  have further : addBusinessDays? lastTwoDays twoDaysBefore 1 = some finalDay :=
    addBusinessDays?_eq_some_iff.mpr (by decide +kernel)
  have starts : threeDaysBefore ≤ twoDaysBefore := by decide
  have ended : finalDay.next? = none := Day.next?_eq_none_iff.mpr rfl
  have exhausted : RunsOut lastTwoDays 1 finalDay :=
    runsOut_iff.mpr (addBusinessDays?_of_few ended (by decide +kernel))
  obtain ⟨inParts, counts, days, idle⟩ := addBusinessDays?_in_parts lastTwoDays
  obtain ⟨_, _, out⟩ := inParts threeDaysBefore 1 1 fits
  exact ⟨fits, out.mpr (.inr ⟨finalDay, comesTo_iff.mpr reached, exhausted⟩), reached, further, starts,
    counts _ 0 1 _ (by decide) reached, days _ _ 1 _ starts further,
    (idle _ _ 1 _ _ starts reached further).mp rfl⟩

end ProcessFlow
