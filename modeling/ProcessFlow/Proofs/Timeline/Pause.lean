import ProcessFlow.Proofs.Timeline.Locality
import ProcessFlow.Proofs.Timeline.Trace

/-! # Steps in which nothing happens

A pause is a step in which no process holds resources and that ends in the state it begins in. It
begins no milestone. Whether a step ends a milestone depends on the state after it, and so a milestone
that would end with the pause has ended with the step before it already. A plan with a pause put in
anywhere therefore gives the same timelines, and it has the same fault in its times, if any.
-/

namespace ProcessFlow

/-! ## Times -/

/-- The error of a plan after a state more has been put in, which takes this number. -/
def PlanError.postponed (number : Nat) : PlanError → PlanError
  | .timeDecreases index previous next =>
    .timeDecreases (if index < number then index else index + 1) previous next
  | .invalidTime index time => .invalidTime (if index < number then index else index + 1) time

namespace Plan

/-- The plan with a step put in at a place, in which no process holds resources. -/
def pauseAt (plan : Plan) (place : Nat) (state : ProjectState) : Plan :=
  { plan with transitions := plan.transitions.insertIdx place ⟨∅, state⟩ }

variable {plan : Plan} {place : Nat} {state : ProjectState}

theorem checkTimes_succ {index number : Nat} (notBefore : number ≤ index) (previous : Binary64)
    (transitions : List Transition) : checkTimes (index + 1) previous transitions =
      (checkTimes index previous transitions).mapError (PlanError.postponed number) := by
  induction transitions generalizing index previous with
  | nil => rfl
  | cons transition rest ih =>
    have later : ¬index < number := Nat.not_lt.mpr notBefore
    simp only [checkTimes]
    split
    · simp [Except.mapError, PlanError.postponed, later]
    · split
      · simp [Except.mapError, PlanError.postponed, later]
      · exact ih (Nat.le_succ_of_le notBefore) transition.next.time

/-- A time that stays the same is in order. -/
theorem checkTimes_pause {index : Nat} (finite : state.time.isFinite = true)
    (rest : List Transition) : checkTimes index state.time (⟨∅, state⟩ :: rest) =
      checkTimes (index + 1) state.time rest := by
  have notLess : state.time.less state.time = false := by
    rw [← Bool.not_eq_true, Binary64.less_iff]
    rintro ⟨_, _, less⟩
    exact Int.lt_irrefl _ less
  simp [checkTimes, finite, notLess]

theorem checkTimes_insertIdx {index : Nat} {initial : ProjectState} {transitions : List Transition}
    (finite : initial.time.isFinite = true)
    (reached : (Plan.mk initial transitions).states[place]? = some state) :
    checkTimes index initial.time (transitions.insertIdx place ⟨∅, state⟩) =
      (checkTimes index initial.time transitions).mapError
        (PlanError.postponed (index + place)) := by
  induction place generalizing index initial transitions with
  | zero =>
    obtain rfl : initial = state := Option.some.inj reached
    rw [List.insertIdx_zero, checkTimes_pause finite]
    exact checkTimes_succ (Nat.le_refl _) initial.time transitions
  | succ place ih =>
    cases transitions with
    | nil => cases reached
    | cons transition rest =>
      have before : index < index + (place + 1) := by omega
      rw [List.insertIdx_succ_cons, checkTimes, checkTimes]
      split
      · simp [Except.mapError, PlanError.postponed]
      · rename_i nextFinite
        rw [Bool.not_eq_true, Bool.not_eq_false'] at nextFinite
        split
        · simp [Except.mapError, PlanError.postponed]
        · rw [ih nextFinite reached, Nat.add_right_comm index 1 place, Nat.add_assoc index place 1]

/-- The times of a plan with a pause are as valid as without it. -/
theorem validate_pauseAt (reached : plan.states[place]? = some state) :
    (plan.pauseAt place state).validate =
      plan.validate.mapError (PlanError.postponed (place + 1)) := by
  rw [validate, validate, pauseAt]
  dsimp only
  split
  · simp [Except.mapError, PlanError.postponed]
  · rename_i finite
    rw [Bool.not_eq_true, Bool.not_eq_false'] at finite
    rw [Nat.add_comm place 1]
    exact checkTimes_insertIdx finite reached

/-! ## Steps -/

/-- At a place that a plan reaches it is cut into what leads there and what goes on from there. -/
theorem exists_cut (reached : plan.states[place]? = some state) :
    ∃ before after, plan = (Plan.mk plan.initial before).extend after ∧
      (Plan.mk plan.initial before).finalState = state ∧
      ∀ other, plan.pauseAt place other =
        (Plan.mk plan.initial before).extend (⟨∅, other⟩ :: after) := by
  obtain ⟨initial, transitions⟩ := plan
  induction place generalizing initial transitions with
  | zero =>
    obtain rfl : initial = state := Option.some.inj reached
    exact ⟨[], transitions, rfl, rfl, fun _ => rfl⟩
  | succ place ih =>
    cases transitions with
    | nil => cases reached
    | cons transition rest =>
      obtain ⟨before, after, whole, last, paused⟩ := ih transition.next rest reached
      refine ⟨transition :: before, after, ?_, (finalState_cons ..).trans last, fun other => ?_⟩
      · have same := congrArg transitions whole
        simpa [extend] using same
      · have same := congrArg transitions (paused other)
        simpa [extend, pauseAt] using same

theorem finalState_extend (plan : Plan) (more : List Transition) :
    (plan.extend more).finalState = (Plan.mk plan.finalState more).finalState := by
  obtain ⟨initial, transitions⟩ := plan
  induction transitions generalizing initial with
  | nil => rfl
  | cons transition rest ih =>
    rw [finalState_cons, ← ih transition.next]
    exact finalState_cons ..

/-- A pause leaves the final state as it is. -/
theorem finalState_pauseAt (reached : plan.states[place]? = some state) :
    (plan.pauseAt place state).finalState = plan.finalState := by
  obtain ⟨before, after, whole, last, paused⟩ := exists_cut reached
  rw [paused, finalState_extend, finalState_cons, ← last, ← finalState_extend, ← whole]

/-- The last step of a plan ends in its final state. -/
theorem next_of_getLast?_steps {step : ProjectState × Transition}
    (last : plan.steps.getLast? = some step) : step.2.next = plan.finalState := by
  have isLast : plan.transitions.getLast? = some step.2 := by
    rw [← map_steps, List.getLast?_map, last, Option.map_some]
  rw [finalState, isLast]

end Plan

/-! ## Replay -/

namespace TimelineItem

variable {begins ends : Step → Bool} {item : TimelineItem} {step idle : Step} {steps : List Step}

/-- A milestone that has begun by the end of a step and not ended is not ended by the step. -/
theorem ends_of_advance (started : (item.advance begins ends step).start.isSome = true)
    (unfinished : (item.advance begins ends step).finish = none) : ends step = false := by
  rw [advance] at started unfinished
  dsimp only at started unfinished
  rw [started, Bool.true_and] at unfinished
  split at unfinished
  · cases unfinished
  · rename_i goesOn
    rw [unfinished, Option.isNone_none, Bool.true_and] at goesOn
    exact Bool.not_eq_true _ ▸ goesOn

/-- Steps that do not begin a milestone and that end it only if the step before does change nothing. -/
theorem advance_ofSteps_of_idle (quiet : begins idle = false)
    (follows : ∀ last, steps.getLast? = some last → ends idle = true → ends last = true) :
    (ofSteps begins ends steps).advance begins ends idle = ofSteps begins ends steps := by
  have unmoved (item : TimelineItem)
      (settled : item.start.isSome = true → item.finish = none → ends idle = false) :
      item.advance begins ends idle = item := by
    obtain ⟨start, finish⟩ := item
    cases start with
    | none => simp [advance, quiet]
    | some start =>
      cases finish with
      | none => simp [advance, settled rfl rfl]
      | some finish => simp [advance]
  apply unmoved
  rcases List.eq_nil_or_concat' steps with rfl | ⟨before, last, rfl⟩
  · intro started
    cases started
  · rw [ofSteps, List.foldl_append, List.foldl_cons, List.foldl_nil]
    intro started unfinished
    have notEnded := ends_of_advance started unfinished
    rw [← Bool.not_eq_true]
    intro ended
    rw [follows last (by simp) ended] at notEnded
    cases notEnded

theorem ofSteps_insert {after : List Step} (quiet : begins idle = false)
    (follows : ∀ last, steps.getLast? = some last → ends idle = true → ends last = true) :
    ofSteps begins ends (steps ++ idle :: after) = ofSteps begins ends (steps ++ after) := by
  have unmoved := advance_ofSteps_of_idle quiet follows
  rw [ofSteps] at unmoved
  rw [ofSteps, List.foldl_append, List.foldl_cons, unmoved, ofSteps, List.foldl_append]

end TimelineItem

namespace Plan

variable {plan : Plan} {place : Nat} {state : ProjectState}

/-- The steps of a plan with a pause are those without it, and the pause after some that lead to its
state. -/
theorem exists_stepsFor_pauseAt (reached : plan.states[place]? = some state) (group : GroupId)
    (id : MilestoneId) : ∃ earlier later, plan.stepsFor group id = earlier ++ later ∧
      (plan.pauseAt place state).stepsFor group id =
        earlier ++ view group id (state, ⟨∅, state⟩) :: later ∧
      ∀ last, earlier.getLast? = some last → last.milestone = id ∧ last.next = state := by
  obtain ⟨before, after, whole, final, paused⟩ := exists_cut reached
  refine ⟨(Plan.mk plan.initial before).stepsFor group id, (Plan.mk state after).stepsFor group id,
    ?_, ?_, fun last isLast => ?_⟩
  · rw [← final, ← stepsFor_extend, ← whole]
  · rw [paused, stepsFor_extend, final]
    rfl
  · rw [stepsFor_eq, List.getLast?_map, Option.map_eq_some_iff] at isLast
    obtain ⟨step, isStep, rfl⟩ := isLast
    exact ⟨rfl, (next_of_getLast?_steps isStep).trans final⟩

theorem not_touches_pause (milestone : Milestone) (state : ProjectState) :
    ¬(Transition.mk ∅ state).Touches milestone := by
  rintro ⟨process, _, held⟩
  cases held

/-- A pause does not show in the replay for a group. -/
theorem rawTimeline_pauseAt (reached : plan.states[place]? = some state) (table : MilestoneTable)
    (group : GroupId) :
    (plan.pauseAt place state).rawTimeline table group = plan.rawTimeline table group := by
  apply OrderedMap.ext_get?
  intro id
  obtain ⟨earlier, later, steps, stepsPaused, leads⟩ := exists_stepsFor_pauseAt reached group id
  rw [rawTimeline, rawTimeline, get?_replayTrace, get?_replayTrace, finalState_pauseAt reached, steps,
    stepsPaused]
  congr 2
  apply TimelineItem.ofSteps_insert
  · rw [← Bool.not_eq_true, Option.any_eq_true]
    rintro ⟨milestone, _, touches⟩
    exact not_touches_pause milestone state (allocationTouches_iff.mp touches)
  · -- Whether a step ends a milestone depends on the state after it only.
    rintro ⟨_, milestone, _, _, next⟩ isLast ended
    obtain ⟨rfl, rfl⟩ := leads _ isLast
    exact ended

/-- A plan with a pause at a place that it reaches is refused for the same times, of which those from
the place on have another number, and every group has the same timeline, or has none for the same
reason. -/
theorem pauseAt_exact (reached : plan.states[place]? = some state) :
    (plan.pauseAt place state).validate =
      plan.validate.mapError (PlanError.postponed (place + 1)) ∧
    ∀ table group,
      (plan.pauseAt place state).groupTimeline table group = plan.groupTimeline table group := by
  refine ⟨validate_pauseAt reached, fun table group => ?_⟩
  rw [groupTimeline, groupTimeline, rawTimeline_pauseAt reached]

/-- The states after each of the steps of the plan with rework. -/
def midway : ProjectState := ⟨one, .ofList [(⟨"P1"⟩, 1)]⟩
def afterRework : ProjectState := ⟨two, .ofList [(⟨"P1"⟩, 2), (⟨"P2"⟩, 1)]⟩

/-- The steps of the plan with rework the other way round, so that time goes back. -/
def backInTime : Plan := { rework with transitions := rework.transitions.reverse }

/-- A pause in the middle or at the end leaves the milestones as they are, and time goes back one state
later after a pause. -/
theorem pauseAt_exact_rework :
    rework.states[1]? = some midway ∧ rework.states[2]? = some afterRework ∧
    (rework.pauseAt 1 midway).groupTimeline stages ⟨"G"⟩ = .ok reworkTimeline ∧
    (rework.pauseAt 2 afterRework).groupTimeline stages ⟨"G"⟩ = .ok reworkTimeline ∧
    backInTime.validate = .error (.timeDecreases 2 two one) ∧
    backInTime.states[1]? = some afterRework ∧
    (backInTime.pauseAt 1 afterRework).validate = .error (.timeDecreases 3 two one) := by
  have built : rework.groupTimeline stages ⟨"G"⟩ = .ok reworkTimeline := by cbv
  have refused : backInTime.validate = .error (.timeDecreases 2 two one) := by cbv
  have middle : rework.states[1]? = some midway := rfl
  have last : rework.states[2]? = some afterRework := rfl
  have first : backInTime.states[1]? = some afterRework := rfl
  have shifted := (pauseAt_exact first).1
  rw [refused] at shifted
  exact ⟨middle, last, ((pauseAt_exact middle).2 _ _).trans built,
    ((pauseAt_exact last).2 _ _).trans built, refused, first, shifted⟩

end Plan

end ProcessFlow
