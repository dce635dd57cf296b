import ProcessFlow.Plan
import ProcessFlow.Proofs.Number.Order

/-! # The course of a plan

A plan goes through its states one after another. From any of its steps on, the rest of the plan is
a plan itself: it ends in the same state, and its states are the last ones of the whole.
-/

namespace ProcessFlow

namespace Plan

variable {plan : Plan}

def states (plan : Plan) : List ProjectState := plan.initial :: plan.transitions.map Transition.next

/-- The later state is at a time no less than that of the earlier. -/
def InOrder (earlier later : ProjectState) : Prop := later.time.atLeast earlier.time = true

theorem steps_cons (initial : ProjectState) (transition : Transition) (rest : List Transition) :
    (Plan.mk initial (transition :: rest)).steps =
      (initial, transition) :: (Plan.mk transition.next rest).steps := rfl

theorem finalState_cons (initial : ProjectState) (transition : Transition)
    (rest : List Transition) :
    (Plan.mk initial (transition :: rest)).finalState = (Plan.mk transition.next rest).finalState := by
  cases rest with
  | nil => rfl
  | cons next rest =>
    have last := List.getLast?_eq_some_getLast (List.cons_ne_nil next rest)
    simp only [finalState, List.getLast?_cons_cons, last]

theorem map_steps (plan : Plan) : plan.steps.map Prod.snd = plan.transitions := by
  apply List.map_snd_zip
  simp

theorem mem_transitions_of_mem_steps {step : ProjectState × Transition}
    (member : step ∈ plan.steps) : step.2 ∈ plan.transitions := by
  rw [← map_steps]
  exact List.mem_map_of_mem member

theorem mem_states_of_mem_steps {step : ProjectState × Transition} (member : step ∈ plan.steps) :
    step.1 ∈ plan.states := (List.of_mem_zip member).1

/-! ## Valid times -/

/-- Every time is a finite number, and none is less than one before it. -/
structure Timed (plan : Plan) : Prop where
  finite : ∀ state ∈ plan.states, state.time.isFinite = true
  ordered : plan.states.Pairwise InOrder

theorem timed_of_checkTimes {index : Nat} {initial : ProjectState} {transitions : List Transition}
    (finite : initial.time.isFinite = true)
    (checked : checkTimes index initial.time transitions = .ok ()) :
    (Plan.mk initial transitions).Timed := by
  induction transitions generalizing index initial with
  | nil => exact ⟨List.forall_mem_cons.mpr ⟨finite, nofun⟩, List.pairwise_singleton ..⟩
  | cons transition rest ih =>
    rw [checkTimes] at checked
    split at checked
    · cases checked
    · rename_i nextFinite
      rw [Bool.not_eq_true, Bool.not_eq_false'] at nextFinite
      split at checked
      · cases checked
      · rename_i notLess
        obtain ⟨restFinite, restOrdered⟩ := ih nextFinite checked
        have follows : InOrder initial transition.next :=
          Binary64.atLeast_of_not_less (Binary64.isNaN_of_isFinite nextFinite)
            (Binary64.isNaN_of_isFinite finite) (Bool.not_eq_true _ ▸ notLess)
        refine ⟨List.forall_mem_cons.mpr ⟨finite, restFinite⟩, ?_⟩
        refine List.pairwise_cons.mpr ⟨List.forall_mem_cons.mpr ⟨follows, ?_⟩, restOrdered⟩
        intro state member
        have later := (List.pairwise_cons.mp restOrdered).1 state member
        exact Binary64.atLeast_trans later follows

/-- An accepted plan has valid times. -/
theorem timed_of_validate (valid : plan.validate = .ok ()) : plan.Timed := by
  rw [validate] at valid
  split at valid
  · cases valid
  · rename_i finite
    rw [Bool.not_eq_true, Bool.not_eq_false'] at finite
    exact timed_of_checkTimes finite valid

theorem Timed.of_suffix {rest : Plan} (timed : plan.Timed) (last : rest.states <:+ plan.states) :
    rest.Timed :=
  ⟨fun state member => timed.finite state (last.subset member), timed.ordered.sublist last.sublist⟩

/-- No state after a step is before its beginning. -/
theorem Timed.initial_le (timed : plan.Timed) {transition : Transition}
    (member : transition ∈ plan.transitions) : InOrder plan.initial transition.next :=
  (List.pairwise_cons.mp timed.ordered).1 _ (List.mem_map_of_mem member)

/-! ## The rest of a plan -/

/-- From any of its steps on, the steps of a plan are those of a plan with the same end. -/
theorem exists_rest {earlier later : List (ProjectState × Transition)} {state : ProjectState}
    {transition : Transition} (split : plan.steps = earlier ++ (state, transition) :: later) :
    ∃ rest : Plan, rest.initial = state ∧ rest.steps = (state, transition) :: later ∧
      rest.states <:+ plan.states ∧ rest.finalState = plan.finalState := by
  induction earlier generalizing plan with
  | nil =>
    obtain ⟨initial, transitions⟩ := plan
    cases transitions with
    | nil => cases split
    | cons first others =>
      refine ⟨⟨initial, first :: others⟩, ?_, split, List.suffix_refl _, rfl⟩
      rw [steps_cons, List.nil_append, List.cons.injEq, Prod.mk.injEq] at split
      exact split.1.1
  | cons step earlier ih =>
    obtain ⟨initial, transitions⟩ := plan
    cases transitions with
    | nil => cases split
    | cons first others =>
      rw [steps_cons, List.cons_append, List.cons.injEq] at split
      obtain ⟨rest, begins, steps, last, same⟩ := ih split.2
      exact ⟨rest, begins, steps, last.trans (List.suffix_cons ..),
        same.trans (finalState_cons ..).symm⟩

/-- A plan with steps ends with one of them. -/
theorem exists_final_step (solid : plan.transitions ≠ []) :
    ∃ step ∈ plan.steps, step.2.next = plan.finalState := by
  have member : plan.transitions.getLast solid ∈ plan.steps.map Prod.snd := by
    rw [map_steps]
    exact List.getLast_mem solid
  obtain ⟨step, isStep, last⟩ := List.mem_map.mp member
  refine ⟨step, isStep, ?_⟩
  rw [finalState, List.getLast?_eq_some_getLast solid, last]

section Split

variable {earlier later : List (ProjectState × Transition)} {state : ProjectState}
  {transition : Transition}

/-- From one of its steps on a plan goes to its end. -/
theorem exists_final_of_split (split : plan.steps = earlier ++ (state, transition) :: later) :
    ∃ step ∈ (state, transition) :: later, step.2.next = plan.finalState := by
  obtain ⟨rest, _, steps, _, same⟩ := exists_rest split
  have solid : rest.transitions ≠ [] := by
    rw [← map_steps, steps]
    exact List.cons_ne_nil _ _
  rw [← steps, ← same]
  exact exists_final_step solid

/-- From one of its steps on a plan is at no time before that of the step. -/
theorem Timed.after_split (timed : plan.Timed)
    (split : plan.steps = earlier ++ (state, transition) :: later)
    {step : ProjectState × Transition} (member : step ∈ (state, transition) :: later) :
    step.2.next ∈ plan.states ∧ InOrder state step.2.next := by
  obtain ⟨rest, begins, steps, last, _⟩ := exists_rest split
  rw [← steps] at member
  have isTransition := mem_transitions_of_mem_steps member
  have follows := (timed.of_suffix last).initial_le isTransition
  rw [begins] at follows
  exact ⟨last.subset (List.mem_cons_of_mem _ (List.mem_map_of_mem isTransition)), follows⟩

end Split

end Plan

end ProcessFlow
