import ProcessFlow.Calendar.BusinessTime
import ProcessFlow.Proofs.Calendar.BusinessDay

/-! # Remembered steps change no answer

A cache that agrees with a step function answers as that function and still agrees with it
afterwards. So a moment does not depend on what was placed before it: it is the one that is found
with every step taken anew.
-/

namespace ProcessFlow

namespace StepCache

variable {step : Day → Nat → Option Day} {cache : StepCache} {day reached : Day} {count : Nat}

/-- Every remembered step is one that the step function takes. -/
def AgreesWith (cache : StepCache) (step : Day → Nat → Option Day) : Prop :=
  ∀ entry ∈ cache.entries, step entry.day entry.count = some entry.reached

theorem agreesWith_empty (step : Day → Nat → Option Day) : empty.AgreesWith step := by
  intro entry member
  cases member

theorem AgreesWith.of_find? (agrees : cache.AgreesWith step)
    (found : cache.find? day count = some reached) : step day count = some reached := by
  rw [find?, Option.map_eq_some_iff] at found
  obtain ⟨entry, hit, rfl⟩ := found
  have asked := List.find?_some hit
  simp only [decide_eq_true_eq] at asked
  obtain ⟨rfl, rfl⟩ := asked
  exact agrees entry (List.mem_of_find?_eq_some hit)

/-- A cache answers as the step function it agrees with. -/
theorem AgreesWith.get_fst (agrees : cache.AgreesWith step) (day : Day) (count : Nat) :
    (cache.get step day count).1 = step day count := by
  rw [get]
  cases found : cache.find? day count with
  | some reached => exact (agrees.of_find? found).symm
  | none => cases step day count <;> rfl

/-- Taking a step keeps the agreement. -/
theorem AgreesWith.get_snd (agrees : cache.AgreesWith step) (day : Day) (count : Nat) :
    (cache.get step day count).2.AgreesWith step := by
  rw [get]
  cases found : cache.find? day count with
  | some reached => exact agrees
  | none =>
    cases taken : step day count with
    | none => exact agrees
    | some reached =>
      intro entry member
      rcases List.mem_cons.mp member with rfl | earlier
      · exact taken
      · exact agrees entry earlier

end StepCache

namespace BusinessCalendar

variable {calendar : BusinessCalendar} {cache : StepCache} {start anchor : Day} {time : Binary64}
  {moment : DateTime}

/-- The steps of a cache are steps of the calendar. -/
def Remembers (calendar : BusinessCalendar) (cache : StepCache) : Prop :=
  cache.AgreesWith calendar.step

theorem remembers_empty (calendar : BusinessCalendar) : calendar.Remembers .empty :=
  StepCache.agreesWith_empty calendar.step

/-- The moment of a business time after a start, with each step counted from the start. -/
def momentOf (calendar : BusinessCalendar) (start : Day) (time : Binary64) :
    Except CalendarError DateTime :=
  if !isBusinessTime time then .error (.invalidBusinessTime time)
  else
    match calendar.step start 0 with
    | none => .error .pastLastDay
    | some anchor =>
      let hours := calendar.hours anchor
      let length := hours.length.nanoseconds
      if length ≤ 0 then .error (.nonPositiveBusinessDay anchor hours)
      else
        match calendar.step start time.wholePart with
        | none => .error .pastLastDay
        | some day =>
          (shareAfter (calendar.hours day).opening length.toNat time).map (DateTime.mk day)

/-- Counting from the first business day is counting from the start. -/
theorem step_of_anchor (anchored : calendar.step start 0 = some anchor) (count : Nat) :
    calendar.step anchor count = calendar.step start count := by
  have joined : calendar.step start (0 + count) =
    (calendar.step start 0).bind (calendar.step · count) := addBusinessDays?_add count
  rw [Nat.zero_add, anchored, Option.bind_some] at joined
  exact joined.symm

/-- The landing day is found from the first business day, with or without the cache. -/
theorem Remembers.landed (remembers : calendar.Remembers cache)
    (anchored : calendar.step start 0 = some anchor) (count : Nat) :
    (if count = 0 then (some anchor, cache) else cache.get calendar.step anchor count).1 =
        calendar.step start count ∧
      calendar.Remembers
        (if count = 0 then (some anchor, cache) else cache.get calendar.step anchor count).2 := by
  split
  · rename_i here
    rw [here]
    exact ⟨anchored.symm, remembers⟩
  · have answered := StepCache.AgreesWith.get_fst remembers anchor count
    exact ⟨answered.trans (step_of_anchor anchored count),
      StepCache.AgreesWith.get_snd remembers anchor count⟩

/-- Remembered steps change no moment, and the cache stays a memory of the calendar's steps. -/
theorem Remembers.place (remembers : calendar.Remembers cache) (start : Day) (time : Binary64) :
    (calendar.place cache start time).1 = calendar.momentOf start time ∧
      calendar.Remembers (calendar.place cache start time).2 := by
  have answered := StepCache.AgreesWith.get_fst remembers start 0
  have kept : calendar.Remembers _ := StepCache.AgreesWith.get_snd remembers start 0
  rw [BusinessCalendar.place, momentOf]
  -- The second step is taken with the cache that the first one leaves behind.
  split
  · exact ⟨rfl, remembers⟩
  revert answered kept
  rcases cache.get calendar.step start 0 with ⟨anchor, memory⟩
  intro answered kept
  cases anchor with
  | none =>
    rw [← answered]
    exact ⟨rfl, kept⟩
  | some anchor =>
    rw [← answered]
    dsimp only
    split
    · exact ⟨rfl, kept⟩
    · obtain ⟨landing, remembered⟩ := kept.landed answered.symm time.wholePart
      revert landing remembered
      generalize (if time.wholePart = 0 then (some anchor, memory)
        else memory.get calendar.step anchor time.wholePart) = landed
      intro landing remembered
      obtain ⟨day, after⟩ := landed
      rw [← landing]
      cases day with
      | none => exact ⟨rfl, remembered⟩
      | some day => exact ⟨rfl, remembered⟩

end BusinessCalendar

end ProcessFlow
