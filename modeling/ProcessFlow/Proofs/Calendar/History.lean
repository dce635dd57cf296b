import Mathlib.Data.List.Dedup
import ProcessFlow.Proofs.Calendar.Memory

/-! # Answers after any history

Questions asked one after another leave behind what they add to memory. As every answer is that of the
step function, whatever was asked before, a run of questions answers as the step function does. The
cache holds each step once that was asked for and leads somewhere, so its size is the count of them.
-/

namespace ProcessFlow

section Runs

variable {σ ι ω : Type} {ask : σ → ι → ω × σ} {state : σ}

/-- The answers to questions asked one after another, and the state after the last. -/
def answers (ask : σ → ι → ω × σ) (state : σ) : List ι → List ω × σ
  | [] => ([], state)
  | question :: rest =>
    let (answer, state) := ask state question
    let (others, state) := answers ask state rest
    (answer :: others, state)

theorem answers_cons (question : ι) (rest : List ι) : answers ask state (question :: rest) =
    ((ask state question).1 :: (answers ask (ask state question).2 rest).1,
      (answers ask (ask state question).2 rest).2) := rfl

/-- Where the answer is a function of the question as long as an invariant holds, which every question
keeps, the answers of a run are those of the function. -/
theorem answers_of_invariant {Holds : σ → Prop} {answer : ι → ω}
    (keeps : ∀ state question, Holds state →
      (ask state question).1 = answer question ∧ Holds (ask state question).2)
    (holds : Holds state) (questions : List ι) :
    (answers ask state questions).1 = questions.map answer ∧
      Holds (answers ask state questions).2 := by
  induction questions generalizing state with
  | nil => exact ⟨rfl, holds⟩
  | cons question rest ih =>
    obtain ⟨first, kept⟩ := keeps state question holds
    obtain ⟨others, after⟩ := ih kept
    rw [answers_cons, first, others]
    exact ⟨rfl, after⟩

end Runs

namespace StepCache

variable {step : Day → Nat → Option Day} {cache : StepCache} {asked : List (Day × Nat)}

/-- The steps to a list of days and counts, taken one after another. -/
def getAll (step : Day → Nat → Option Day) (cache : StepCache) (keys : List (Day × Nat)) :
    List (Option Day) × StepCache :=
  answers (fun cache key => cache.get step key.1 key.2) cache keys

def keys (cache : StepCache) : List (Day × Nat) :=
  cache.entries.map fun entry => (entry.day, entry.count)

theorem find?_isSome_iff {key : Day × Nat} :
    (cache.find? key.1 key.2).isSome = true ↔ key ∈ cache.keys := by
  rw [find?, Option.isSome_map, List.find?_isSome]
  simp only [keys, List.mem_map, decide_eq_true_eq, Prod.ext_iff]

/-- A cache stays as it is when it remembers the step or the step leads nowhere, and else it gains
the step. -/
theorem get_cases (step : Day → Nat → Option Day) (cache : StepCache) (key : Day × Nat) :
    (key ∈ cache.keys ∧ (cache.get step key.1 key.2).2 = cache) ∨
    (step key.1 key.2 = none ∧ (cache.get step key.1 key.2).2 = cache) ∨
    ∃ reached, key ∉ cache.keys ∧ step key.1 key.2 = some reached ∧
      cache.get step key.1 key.2 = (some reached, ⟨⟨key.1, key.2, reached⟩ :: cache.entries⟩) := by
  rw [get, ← find?_isSome_iff]
  cases found : cache.find? key.1 key.2 with
  | some reached => exact .inl ⟨rfl, rfl⟩
  | none =>
    cases taken : step key.1 key.2 with
    | none => exact .inr (.inl ⟨rfl, rfl⟩)
    | some reached => exact .inr (.inr ⟨reached, Bool.false_ne_true, rfl, rfl⟩)

/-- A step that is asked for in vain leaves the cache as it is. -/
theorem get_snd_of_none {day : Day} {count : Nat} (failed : (cache.get step day count).1 = none) :
    (cache.get step day count).2 = cache := by
  rcases get_cases step cache (day, count) with ⟨_, same⟩ | ⟨_, same⟩ | ⟨reached, _, _, grown⟩
  · exact same
  · exact same
  · rw [grown] at failed
    cases failed

/-- The cache remembers each of the asked steps that leads somewhere once, and no others. -/
structure Knows (cache : StepCache) (step : Day → Nat → Option Day) (asked : List (Day × Nat)) :
    Prop where
  distinct : cache.keys.Nodup
  mem_keys : ∀ key, key ∈ cache.keys ↔ key ∈ asked ∧ (step key.1 key.2).isSome = true

theorem knows_empty (step : Day → Nat → Option Day) : empty.Knows step [] where
  distinct := .nil
  mem_keys key := by simp [keys, empty]

/-- Asked for one step more, a cache remembers it too, unless it leads nowhere. -/
theorem Knows.get (knows : cache.Knows step asked) (key : Day × Nat) :
    (cache.get step key.1 key.2).2.Knows step (asked ++ [key]) := by
  rcases get_cases step cache key with
    ⟨known, same⟩ | ⟨failed, same⟩ | ⟨reached, fresh, taken, grown⟩
  · rw [same]
    refine ⟨knows.distinct, fun other => ?_⟩
    obtain ⟨earlier, _⟩ := (knows.mem_keys key).mp known
    have again : other ∈ asked ++ [key] ↔ other ∈ asked := by
      rw [List.mem_append, List.mem_singleton, or_iff_left_of_imp]
      rintro rfl
      exact earlier
    rw [again, knows.mem_keys]
  · rw [same]
    refine ⟨knows.distinct, fun other => ?_⟩
    rw [knows.mem_keys, List.mem_append, List.mem_singleton, or_and_right]
    refine (or_iff_left_of_imp ?_).symm
    rintro ⟨rfl, leads⟩
    rw [failed] at leads
    cases leads
  · rw [grown]
    refine ⟨List.nodup_cons.mpr ⟨fresh, knows.distinct⟩, fun other => ?_⟩
    change other ∈ key :: cache.keys ↔ _
    rw [List.mem_cons, knows.mem_keys, List.mem_append, List.mem_singleton, or_and_right, or_comm]
    refine or_congr_right (iff_self_and.mpr ?_)
    rintro rfl
    rw [taken]
    rfl

/-- A cache remembers what was asked for in a run, whatever it was asked before. -/
theorem Knows.getAll (knows : cache.Knows step asked) (keys : List (Day × Nat)) :
    (getAll step cache keys).2.Knows step (asked ++ keys) := by
  induction keys generalizing cache asked with
  | nil => rwa [List.append_nil]
  | cons key rest ih =>
    rw [List.append_cons]
    exact ih (knows.get key)

/-- A cache has the size of the distinct steps that it was asked for and that lead somewhere. -/
theorem Knows.size_eq (knows : cache.Knows step asked) :
    cache.size = (asked.filter fun key => (step key.1 key.2).isSome).dedup.length := by
  have same : cache.keys.Perm (asked.filter fun key => (step key.1 key.2).isSome).dedup := by
    rw [List.perm_ext_iff_of_nodup knows.distinct (List.nodup_dedup _)]
    intro key
    rw [List.mem_dedup, List.mem_filter, knows.mem_keys]
  rw [← same.length_eq, keys, List.length_map, size]

/-- Steps taken one after another are those of the step function. -/
theorem AgreesWith.getAll (agrees : cache.AgreesWith step) (keys : List (Day × Nat)) :
    (getAll step cache keys).1 = keys.map (fun key => step key.1 key.2) ∧
      (getAll step cache keys).2.AgreesWith step := by
  have keeps (cache : StepCache) (key : Day × Nat) (agrees : cache.AgreesWith step) :
      (cache.get step key.1 key.2).1 = step key.1 key.2 ∧
        (cache.get step key.1 key.2).2.AgreesWith step :=
    ⟨agrees.get_fst key.1 key.2, agrees.get_snd key.1 key.2⟩
  exact answers_of_invariant keeps agrees keys

end StepCache

namespace BusinessCalendar

variable {calendar : BusinessCalendar} {cache : StepCache}

/-- Place business times after starts, one after another. -/
def placeAll (calendar : BusinessCalendar) (cache : StepCache) (queries : List (Day × Binary64)) :
    List (Except CalendarError DateTime) × StepCache :=
  answers (fun cache query => calendar.place cache query.1 query.2) cache queries

/-- Moments found one after another are those of the calendar, with or without a memory of it. -/
theorem Remembers.placeAll (remembers : calendar.Remembers cache) (queries : List (Day × Binary64)) :
    (calendar.placeAll cache queries).1 =
        queries.map (fun query => calendar.momentOf query.1 query.2) ∧
      calendar.Remembers (calendar.placeAll cache queries).2 :=
  answers_of_invariant (fun _ query remembers => remembers.place query.1 query.2) remembers queries

end BusinessCalendar

end ProcessFlow
