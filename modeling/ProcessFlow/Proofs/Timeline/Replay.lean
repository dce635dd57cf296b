import Mathlib.Data.List.TakeWhile
import ProcessFlow.Proofs.Timeline.Plan
import ProcessFlow.Timeline

/-! # What a replay records

A replay takes the first step that begins a milestone, and from there on the first step that ends
it. For the milestones of a table the first step to look for an end is followed to the end of the
plan, and after the last step every process has completed as often as it ever will. So a milestone
that has begun also ends.
-/

namespace ProcessFlow

namespace TimelineItem

variable {begins ends : Step → Bool}

theorem foldl_finished (start finish : Binary64) (steps : List Step) :
    steps.foldl (advance begins ends) ⟨some start, some finish⟩ = ⟨some start, some finish⟩ := by
  induction steps with
  | nil => rfl
  | cons step rest ih =>
    have same : advance begins ends ⟨some start, some finish⟩ step = ⟨some start, some finish⟩ := by
      simp [advance]
    rw [List.foldl_cons, same, ih]

theorem foldl_started (start : Binary64) (steps : List Step) :
    steps.foldl (advance begins ends) ⟨some start, none⟩ =
      ⟨some start, (steps.find? ends).map fun step => step.next.time⟩ := by
  induction steps with
  | nil => rfl
  | cons step rest ih =>
    rw [List.foldl_cons]
    by_cases here : ends step = true
    · have ended : advance begins ends ⟨some start, none⟩ step =
          ⟨some start, some step.next.time⟩ := by simp [advance, here]
      rw [ended, foldl_finished, List.find?_cons_of_pos here, Option.map_some]
    · have same : advance begins ends ⟨some start, none⟩ step = ⟨some start, none⟩ := by
        simp [advance, here]
      rw [same, ih, List.find?_cons_of_neg here]

/-- The start is the time before the first step that begins the milestone, and the end the time
after the first step from there on that ends it. -/
theorem ofSteps_eq (steps : List Step) : ofSteps begins ends steps =
    ⟨(steps.find? begins).map fun step => step.previous.time,
      ((steps.dropWhile fun step => !begins step).find? ends).map fun step => step.next.time⟩ := by
  rw [ofSteps]
  induction steps with
  | nil => rfl
  | cons step rest ih =>
    by_cases here : begins step = true
    · have started : advance begins ends unset step =
          advance begins ends ⟨some step.previous.time, none⟩ step := by
        simp [advance, unset, here]
      have stays : (step :: rest).dropWhile (fun step => !begins step) = step :: rest := by
        simp [here]
      rw [List.foldl_cons, started, ← List.foldl_cons, foldl_started, List.find?_cons_of_pos here,
        Option.map_some, stays]
    · have same : advance begins ends unset step = unset := by simp [advance, unset, here]
      have skips : (step :: rest).dropWhile (fun step => !begins step) =
          rest.dropWhile fun step => !begins step := by simp [here]
      rw [List.foldl_cons, same, ih, List.find?_cons_of_neg here, skips]

end TimelineItem

/-- The replay has an item for each of the milestones, whichever others there are. -/
theorem get?_replayTrace (plan : Plan) (group : GroupId) (milestones : List MilestoneId)
    (begins ends : Step → Bool) (milestone : MilestoneId) :
    (replayTrace plan group milestones begins ends).get? milestone =
      if milestone ∈ milestones then
        some (TimelineItem.ofSteps begins ends (plan.stepsFor group milestone))
      else none :=
  OrderedMap.get?_ofList_map milestones
    (fun milestone => TimelineItem.ofSteps begins ends (plan.stepsFor group milestone)) milestone

/-! ## Milestones of a table -/

/-- The transition allocates resources to a process of the milestone. -/
def Transition.Touches (transition : Transition) (milestone : Milestone) : Prop :=
  ∃ process ∈ milestone.processes, process ∈ transition.allocation

namespace Plan

/-- Some transition allocates resources to a process of the milestone. -/
def Reaches (plan : Plan) (milestone : Milestone) : Prop :=
  ∃ transition ∈ plan.transitions, transition.Touches milestone

/-- The state comes before the first transition that allocates resources to a process of the
milestone. -/
def BeginsAt (plan : Plan) (milestone : Milestone) (state : ProjectState) : Prop :=
  ∃ earlier transition later, plan.steps = earlier ++ (state, transition) :: later ∧
    transition.Touches milestone ∧ ∀ step ∈ earlier, ¬ step.2.Touches milestone

/-- The item says of the milestone what the plan says. -/
structure Records (plan : Plan) (milestone : Milestone) (item : TimelineItem) : Prop where
  whole : item = .unset ∨ ∃ start finish, item = ⟨some start, some finish⟩
  reached : item.start.isSome = true ↔ plan.Reaches milestone
  begins : ∀ start, item.start = some start →
    ∃ state, plan.BeginsAt milestone state ∧ state.time = start
  dated : ∀ time, item.start = some time ∨ item.finish = some time →
    ∃ state ∈ plan.states, state.time = time
  ordered : ∀ start finish, item.start = some start → item.finish = some finish →
    finish.atLeast start = true

variable {plan : Plan} {milestone : Milestone}

theorem records_unset (never : ¬ plan.Reaches milestone) : plan.Records milestone .unset where
  whole := .inl rfl
  reached := ⟨nofun, fun reaches => absurd reaches never⟩
  begins := nofun
  dated := by rintro time (start | finish) <;> contradiction
  ordered := nofun

theorem records_of_split {earlier later : List (ProjectState × Transition)} {state : ProjectState}
    {transition : Transition} (timed : plan.Timed)
    (split : plan.steps = earlier ++ (state, transition) :: later)
    (here : transition.Touches milestone) (before : ∀ step ∈ earlier, ¬ step.2.Touches milestone)
    {last : ProjectState × Transition} (member : last ∈ (state, transition) :: later) :
    plan.Records milestone ⟨some state.time, some last.2.next.time⟩ := by
  have isStep : (state, transition) ∈ plan.steps := by rw [split]; simp
  obtain ⟨isState, follows⟩ := timed.after_split split member
  constructor
  · exact .inr ⟨_, _, rfl⟩
  · exact ⟨fun _ => ⟨transition, mem_transitions_of_mem_steps isStep, here⟩, fun _ => rfl⟩
  · intro start same
    cases same
    exact ⟨state, ⟨earlier, transition, later, split, here, before⟩, rfl⟩
  · rintro time (same | same)
    · cases same
      exact ⟨state, mem_states_of_mem_steps isStep, rfl⟩
    · cases same
      exact ⟨last.2.next, isState, rfl⟩
  · intro start finish sameStart sameFinish
    cases sameStart
    cases sameFinish
    exact follows

/-- How a milestone sees a step. -/
def view (group : GroupId) (milestone : MilestoneId) (step : ProjectState × Transition) : Step :=
  ⟨group, milestone, step.1, step.2.allocation, step.2.next⟩

theorem stepsFor_eq (plan : Plan) (group : GroupId) (id : MilestoneId) :
    plan.stepsFor group id = plan.steps.map (view group id) := rfl

/-- If a milestone begins where a transition touches it, and ends at the latest with the plan, the
replay records it. -/
theorem records_ofSteps {begins ends : Step → Bool} {group : GroupId} {id : MilestoneId}
    (timed : plan.Timed)
    (touches : ∀ step, begins (view group id step) = true ↔ step.2.Touches milestone)
    (finished : ∀ step : ProjectState × Transition, step.2.next = plan.finalState →
      ends (view group id step) = true) :
    plan.Records milestone (TimelineItem.ofSteps begins ends (plan.stepsFor group id)) := by
  rw [TimelineItem.ofSteps_eq, stepsFor_eq, List.dropWhile_map, List.find?_map, List.find?_map]
  cases found : plan.steps.find? (begins ∘ view group id) with
  | none =>
    have untouched := List.find?_eq_none.mp found
    have nothing : plan.steps.dropWhile ((fun step => !begins step) ∘ view group id) = [] := by
      rw [List.dropWhile_eq_nil_iff]
      intro step member
      simpa using untouched step member
    rw [nothing]
    apply records_unset
    rintro ⟨transition, member, touched⟩
    rw [← map_steps] at member
    obtain ⟨step, isStep, rfl⟩ := List.mem_map.mp member
    exact untouched step isStep ((touches step).mpr touched)
  | some first =>
    obtain ⟨here, earlier, later, split, before⟩ := List.find?_eq_some_iff_append.mp found
    have remaining : plan.steps.dropWhile ((fun step => !begins step) ∘ view group id) =
        first :: later := by
      rw [split]
      refine (List.dropWhile_append_of_pos before).trans (List.dropWhile_cons_of_neg ?_)
      simpa using here
    obtain ⟨final, isLater, last⟩ := exists_final_of_split split
    have ended : ((first :: later).find? (ends ∘ view group id)).isSome = true :=
      List.find?_isSome.mpr ⟨final, isLater, finished final last⟩
    obtain ⟨step, foundEnd⟩ := Option.isSome_iff_exists.mp ended
    rw [remaining, foundEnd]
    refine records_of_split timed split ((touches first).mp here) ?_ (List.mem_of_find?_eq_some foundEnd)
    intro step member touched
    have untouched := before step member
    rw [Function.comp_apply, (touches step).mpr touched] at untouched
    cases untouched

end Plan

end ProcessFlow
