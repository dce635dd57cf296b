import ProcessFlow.Calendar.Day

/-! # Remembered steps on the calendar

A step leads from a day, over a count of business days, to another day, or past the last
representable day. The days reached by successful steps are remembered by their arguments. A cache
whose entries all agree with a step function answers as that function.
-/

namespace ProcessFlow

/-- One remembered step: the day it starts from, the count of business days, and the day reached. -/
structure RememberedStep where
  day : Day
  count : Nat
  reached : Day
deriving DecidableEq

/-- The steps remembered so far, latest first. -/
structure StepCache where
  entries : List RememberedStep
deriving DecidableEq

namespace StepCache

def empty : StepCache := ⟨[]⟩

instance : Inhabited StepCache := ⟨empty⟩

def size (cache : StepCache) : Nat := cache.entries.length

def isEmpty (cache : StepCache) : Bool := cache.entries.isEmpty

def find? (cache : StepCache) (day : Day) (count : Nat) : Option Day :=
  (cache.entries.find? fun entry => entry.day = day ∧ entry.count = count).map RememberedStep.reached

/-- Take a step, from memory if possible. A step that leads nowhere is not remembered. -/
def get (step : Day → Nat → Option Day) (cache : StepCache) (day : Day) (count : Nat) :
    Option Day × StepCache :=
  match cache.find? day count with
  | some reached => (some reached, cache)
  | none =>
    match step day count with
    | some reached => (some reached, ⟨⟨day, count, reached⟩ :: cache.entries⟩)
    | none => (none, cache)

end StepCache

end ProcessFlow
