import Mathlib.Data.List.Induction
import ProcessFlow.Number.Binary64

/-! # The order of doubles

Comparison orders all numbers, and both zeros stand at one place. A word that is no number compares
with nothing.
-/

namespace ProcessFlow

namespace Binary64

variable {left middle right : Binary64}

theorem isNaN_of_isFinite (finite : left.isFinite = true) : left.isNaN = false := by
  simp only [isFinite, isNaN, decide_eq_true_eq, decide_eq_false_iff_not] at finite ⊢
  omega

theorem atLeast_iff : left.atLeast right = true ↔
    left.isNaN = false ∧ right.isNaN = false ∧ right.rank ≤ left.rank := by
  simp only [atLeast, Bool.and_eq_true, Bool.not_eq_true', decide_eq_true_eq, and_assoc]

theorem less_iff : left.less right = true ↔
    left.isNaN = false ∧ right.isNaN = false ∧ left.rank < right.rank := by
  simp only [less, Bool.and_eq_true, Bool.not_eq_true', decide_eq_true_eq, and_assoc]

theorem atLeast_refl (number : left.isNaN = false) : left.atLeast left = true :=
  atLeast_iff.mpr ⟨number, number, Int.le_refl _⟩

theorem atLeast_trans (upper : left.atLeast middle = true) (lower : middle.atLeast right = true) :
    left.atLeast right = true := by
  obtain ⟨number, _, above⟩ := atLeast_iff.mp upper
  obtain ⟨_, other, below⟩ := atLeast_iff.mp lower
  exact atLeast_iff.mpr ⟨number, other, Int.le_trans below above⟩

theorem atLeast_of_not_less (number : left.isNaN = false) (other : right.isNaN = false)
    (notLess : left.less right = false) : left.atLeast right = true := by
  refine atLeast_iff.mpr ⟨number, other, ?_⟩
  apply Int.not_lt.mp
  intro lower
  rw [less_iff.mpr ⟨number, other, lower⟩] at notLess
  cases notLess

/-- The lesser of two numbers is one of them, and neither is less. -/
theorem least_spec (number : left.isNaN = false) (other : right.isNaN = false) :
    (left.least right = left ∨ left.least right = right) ∧
      left.atLeast (left.least right) = true ∧ right.atLeast (left.least right) = true := by
  simp only [least, other, Bool.false_or]
  split
  · rename_i lower
    obtain ⟨_, _, below⟩ := less_iff.mp lower
    exact ⟨.inl rfl, atLeast_refl number, atLeast_iff.mpr ⟨other, number, Int.le_of_lt below⟩⟩
  · rename_i notLower
    exact ⟨.inr rfl, atLeast_of_not_less number other (Bool.not_eq_true _ ▸ notLower),
      atLeast_refl other⟩

theorem least_of_atLeast (above : left.atLeast right = true) : left.least right = right := by
  obtain ⟨_, other, below⟩ := atLeast_iff.mp above
  rw [least, other, Bool.false_or, if_neg]
  intro lower
  obtain ⟨_, _, less⟩ := less_iff.mp lower
  omega

/-- A minimum of numbers is one of them, and none of them is less. Both zeros can be one. -/
structure IsMinimum (numbers : Binary64 → Prop) (least : Binary64) : Prop where
  member : numbers least
  lowest : ∀ number, numbers number → number.atLeast least = true

/-- The least of several numbers is their minimum. -/
theorem foldl_least_isMinimum {first : Binary64} {others : List Binary64}
    (numbers : ∀ value ∈ first :: others, value.isNaN = false) :
    IsMinimum (· ∈ first :: others) (others.foldl least first) := by
  induction others generalizing first with
  | nil =>
    refine ⟨List.mem_cons_self .., fun value member => ?_⟩
    rw [List.mem_singleton.mp member]
    exact atLeast_refl (numbers first (List.mem_cons_self ..))
  | cons second rest ih =>
    obtain ⟨firstNumber, secondNumber, restNumbers⟩ : first.isNaN = false ∧ second.isNaN = false ∧
        ∀ value ∈ rest, value.isNaN = false := by
      simpa only [List.forall_mem_cons] using numbers
    obtain ⟨choice, belowFirst, belowSecond⟩ := least_spec firstNumber secondNumber
    have number : (first.least second).isNaN = false := by
      rcases choice with same | same <;> rw [same] <;> assumption
    obtain ⟨member, lowest⟩ := ih (List.forall_mem_cons.mpr ⟨number, restNumbers⟩)
    obtain ⟨lowestChoice, lowestRest⟩ := List.forall_mem_cons.mp lowest
    rw [List.foldl_cons]
    refine ⟨?_, List.forall_mem_cons.mpr ⟨atLeast_trans belowFirst lowestChoice,
      List.forall_mem_cons.mpr ⟨atLeast_trans belowSecond lowestChoice, lowestRest⟩⟩⟩
    rcases List.mem_cons.mp member with here | later
    · rw [here]
      rcases choice with same | same <;> rw [same] <;> simp
    · exact List.mem_cons_of_mem _ (List.mem_cons_of_mem _ later)

/-- Among the same numbers, their least one is again the least. It comes out as the same of both zeros,
because the last of them is chosen both times. -/
theorem foldl_least_idem {first : Binary64} {others : List Binary64}
    (numbers : ∀ value ∈ first :: others, value.isNaN = false) :
    others.foldl least (others.foldl least first) = others.foldl least first := by
  induction others using List.reverseRecOn with
  | nil => rfl
  | append_singleton others last ih =>
    have earlier : ∀ value ∈ first :: others, value.isNaN = false :=
      fun value member => numbers value (List.mem_append_left [last] member)
    have lastNumber : last.isNaN = false := numbers last (by simp)
    obtain ⟨member, lowest⟩ := foldl_least_isMinimum earlier
    have number := earlier _ member
    rw [List.foldl_append, List.foldl_append, List.foldl_cons, List.foldl_nil, List.foldl_cons,
      List.foldl_nil]
    cases lower : (others.foldl least first).less last with
    | true =>
      have chosen : (others.foldl least first).least last = others.foldl least first := by
        rw [least, lower, Bool.or_true, if_pos rfl]
      rw [chosen, ih earlier, chosen]
    | false =>
      have above := atLeast_of_not_less number lastNumber lower
      rw [least_of_atLeast above]
      apply least_of_atLeast
      -- What is left of the last number and the others is one of them.
      have among : ∀ value ∈ last :: others, value.atLeast last = true := by
        rw [List.forall_mem_cons] at lowest ⊢
        exact ⟨atLeast_refl lastNumber, fun value other => atLeast_trans (lowest.2 value other) above⟩
      refine among _ (foldl_least_isMinimum ?_).member
      exact List.forall_mem_cons.mpr ⟨lastNumber, (List.forall_mem_cons.mp earlier).2⟩

end Binary64

end ProcessFlow
