import ProcessFlow.Proofs.Timeline.Group

/-! # Where milestones begin and end

The steps of a plan have places. The start of a milestone is taken from the first place whose step
begins it, and its end from the first place from there on whose step ends it. A replay of all
milestones in one pass over the plan gives each of them what a replay of its own gives. A time that is
set stays as it is when the plan goes on.
-/

namespace ProcessFlow

/-! ## Places -/

/-- The first step from a place on at which a predicate holds, with the place where it is found. -/
structure FirstFrom (holds : Step → Bool) (steps : List Step) (place found : Nat) (step : Step) :
    Prop where
  from_le : place ≤ found
  isStep : steps[found]? = some step
  here : holds step = true
  earliest : ∀ between earlier, place ≤ between → between < found →
    steps[between]? = some earlier → holds earlier = false

section Places

variable {holds : Step → Bool} {steps : List Step} {place found : Nat} {step : Step}

theorem find?_drop_eq_some_iff :
    (steps.drop place).find? holds = some step ↔ ∃ found, FirstFrom holds steps place found step := by
  rw [List.find?_eq_some_iff_getElem]
  constructor
  · rintro ⟨here, index, inside, isStep, before⟩
    refine ⟨place + index, Nat.le_add_right .., ?_, here, ?_⟩
    · rw [← List.getElem?_drop, List.getElem?_eq_getElem inside, isStep]
    · intro between earlier notBefore less isEarlier
      have early : between - place < index := by omega
      have same : (steps.drop place)[between - place]? = some earlier := by
        rw [List.getElem?_drop, Nat.add_sub_cancel' notBefore, isEarlier]
      obtain ⟨_, rfl⟩ := List.getElem?_eq_some_iff.mp same
      simpa using before (between - place) early
  · rintro ⟨found, notBefore, isStep, here, earliest⟩
    have same : (steps.drop place)[found - place]? = some step := by
      rw [List.getElem?_drop, Nat.add_sub_cancel' notBefore, isStep]
    obtain ⟨inside, isStep⟩ := List.getElem?_eq_some_iff.mp same
    refine ⟨here, found - place, inside, isStep, ?_⟩
    intro index less
    have isEarlier : steps[place + index]? = some (steps.drop place)[index] := by
      rw [← List.getElem?_drop, List.getElem?_eq_getElem]
    have notHere := earliest (place + index) _ (Nat.le_add_right ..) (by omega) isEarlier
    rw [notHere]
    rfl

theorem find?_eq_some_iff_firstFrom :
    steps.find? holds = some step ↔ ∃ found, FirstFrom holds steps 0 found step := by
  rw [← find?_drop_eq_some_iff, List.drop_zero]

/-- What is left from the first step on is what is left from its place on. -/
theorem FirstFrom.dropWhile_eq (first : FirstFrom holds steps 0 found step) :
    (steps.dropWhile fun step => !holds step) = steps.drop found := by
  obtain ⟨inside, rfl⟩ := List.getElem?_eq_some_iff.mp first.isStep
  have before : ∀ earlier ∈ steps.take found, (!holds earlier) = true := by
    intro earlier member
    obtain ⟨between, less, rfl⟩ := List.mem_take_iff_getElem.mp member
    have isEarlier : steps[between]? = some steps[between] := List.getElem?_eq_getElem _
    rw [first.earliest between _ (Nat.zero_le _) (by omega) isEarlier]
    rfl
  have split : steps.drop found = steps[found] :: steps.drop (found + 1) :=
    List.drop_eq_getElem_cons inside
  calc steps.dropWhile (fun step => !holds step)
    _ = (steps.take found ++ steps.drop found).dropWhile (fun step => !holds step) := by
      rw [List.take_append_drop]
    _ = (steps.drop found).dropWhile (fun step => !holds step) := List.dropWhile_append_of_pos before
    _ = steps.drop found := by
      rw [split]
      apply List.dropWhile_cons_of_neg
      simp [first.here]

/-- The steps from the first one at which a predicate holds on are those from some place on, or there
are none. -/
theorem dropWhile_cases (begins : Step → Bool) (steps : List Step) :
    (∃ place first, FirstFrom begins steps 0 place first) ∨
      (steps.dropWhile fun step => !begins step) = [] ∧
        ∀ place first, ¬FirstFrom begins steps 0 place first := by
  cases found : steps.find? begins with
  | some first =>
    obtain ⟨place, isFirst⟩ := find?_eq_some_iff_firstFrom.mp found
    exact .inl ⟨place, first, isFirst⟩
  | none =>
    have never := List.find?_eq_none.mp found
    refine .inr ⟨?_, fun place first isFirst => ?_⟩
    · rw [List.dropWhile_eq_nil_iff]
      intro step member
      simpa using never step member
    · exact never first (List.mem_of_getElem? isFirst.isStep) isFirst.here

/-- What ends is looked for from the place on where it begins. -/
theorem find?_dropWhile_eq_some_iff {begins ends : Step → Bool} :
    (steps.dropWhile fun step => !begins step).find? ends = some step ↔
      ∃ place first found, FirstFrom begins steps 0 place first ∧
        FirstFrom ends steps place found step := by
  constructor
  · intro isFound
    rcases dropWhile_cases begins steps with ⟨place, first, isFirst⟩ | ⟨nothing, _⟩
    · rw [isFirst.dropWhile_eq] at isFound
      obtain ⟨found, isLast⟩ := find?_drop_eq_some_iff.mp isFound
      exact ⟨place, first, found, isFirst, isLast⟩
    · rw [nothing] at isFound
      cases isFound
  · rintro ⟨place, first, found, isFirst, isLast⟩
    rw [isFirst.dropWhile_eq]
    exact find?_drop_eq_some_iff.mpr ⟨found, isLast⟩

theorem find?_dropWhile_eq_none_iff {begins ends : Step → Bool} :
    (steps.dropWhile fun step => !begins step).find? ends = none ↔
      ∀ place first, FirstFrom begins steps 0 place first →
        ∀ step ∈ steps.drop place, ends step = false := by
  rw [List.find?_eq_none]
  simp only [Bool.not_eq_true]
  constructor
  · intro none place first isFirst
    rw [← isFirst.dropWhile_eq]
    exact none
  · intro none
    rcases dropWhile_cases begins steps with ⟨place, first, isFirst⟩ | ⟨nothing, _⟩
    · rw [isFirst.dropWhile_eq]
      exact none place first isFirst
    · rw [nothing]
      nofun

end Places

namespace TimelineItem

variable {begins ends : Step → Bool} {steps : List Step} {item later : TimelineItem}

/-- The item has the times that steps give a milestone: it starts before the first step that begins
it, and ends after the first step from there on that ends it, and it is unset as far as there are no
such steps. -/
structure Follows (begins ends : Step → Bool) (steps : List Step) (item : TimelineItem) : Prop where
  start : ∀ time, item.start = some time ↔
    ∃ place step, FirstFrom begins steps 0 place step ∧ step.previous.time = time
  finish : ∀ time, item.finish = some time ↔
    ∃ place first found step, FirstFrom begins steps 0 place first ∧
      FirstFrom ends steps place found step ∧ step.next.time = time
  unstarted : item.start = none ↔ ∀ step ∈ steps, begins step = false
  unfinished : item.finish = none ↔ ∀ place first, FirstFrom begins steps 0 place first →
    ∀ step ∈ steps.drop place, ends step = false

theorem follows_ofSteps (begins ends : Step → Bool) (steps : List Step) :
    (ofSteps begins ends steps).Follows begins ends steps := by
  rw [ofSteps_eq]
  constructor
  · intro time
    simp only [Option.map_eq_some_iff, find?_eq_some_iff_firstFrom]
    constructor
    · rintro ⟨step, ⟨place, isFirst⟩, same⟩
      exact ⟨place, step, isFirst, same⟩
    · rintro ⟨place, step, isFirst, same⟩
      exact ⟨step, ⟨place, isFirst⟩, same⟩
  · intro time
    simp only [Option.map_eq_some_iff, find?_dropWhile_eq_some_iff]
    constructor
    · rintro ⟨step, ⟨place, first, found, isFirst, isLast⟩, same⟩
      exact ⟨place, first, found, step, isFirst, isLast, same⟩
    · rintro ⟨place, first, found, step, isFirst, isLast, same⟩
      exact ⟨step, ⟨place, first, found, isFirst, isLast⟩, same⟩
  · rw [Option.map_eq_none_iff, List.find?_eq_none]
    simp only [Bool.not_eq_true]
  · rw [Option.map_eq_none_iff, find?_dropWhile_eq_none_iff]

/-- What is set stays as it is. -/
structure KeptBy (item later : TimelineItem) : Prop where
  start : ∀ time, item.start = some time → later.start = some time
  finish : ∀ time, item.finish = some time → later.finish = some time

theorem keptBy_refl (item : TimelineItem) : item.KeptBy item := ⟨fun _ set => set, fun _ set => set⟩

theorem KeptBy.trans {last : TimelineItem} (first : item.KeptBy later) (second : later.KeptBy last) :
    item.KeptBy last :=
  ⟨fun time set => second.start time (first.start time set),
    fun time set => second.finish time (first.finish time set)⟩

theorem keptBy_advance (begins ends : Step → Bool) (item : TimelineItem) (step : Step) :
    item.KeptBy (item.advance begins ends step) := by
  constructor
  · intro time set
    simp [advance, set]
  · intro time set
    simp [advance, set]

theorem keptBy_foldl (begins ends : Step → Bool) (item : TimelineItem) (steps : List Step) :
    item.KeptBy (steps.foldl (advance begins ends) item) := by
  induction steps generalizing item with
  | nil => exact keptBy_refl item
  | cons step rest ih => exact (keptBy_advance begins ends item step).trans (ih _)

/-- Further steps change nothing that is set. -/
theorem keptBy_ofSteps_append (begins ends : Step → Bool) (steps more : List Step) :
    (ofSteps begins ends steps).KeptBy (ofSteps begins ends (steps ++ more)) := by
  rw [ofSteps, ofSteps, List.foldl_append]
  exact keptBy_foldl ..

end TimelineItem

/-! ## Plans that go on -/

namespace Plan

/-- A plan with more transitions after its own. -/
def extend (plan : Plan) (more : List Transition) : Plan :=
  { plan with transitions := plan.transitions ++ more }

/-- A plan that goes on does so from its final state. -/
theorem steps_extend (plan : Plan) (more : List Transition) :
    (plan.extend more).steps = plan.steps ++ (Plan.mk plan.finalState more).steps := by
  obtain ⟨initial, transitions⟩ := plan
  induction transitions generalizing initial with
  | nil => rfl
  | cons transition rest ih =>
    have onward := ih transition.next
    rw [extend] at onward ⊢
    rw [List.cons_append, steps_cons, onward, finalState_cons, steps_cons, List.cons_append]

theorem stepsFor_extend (plan : Plan) (more : List Transition) (group : GroupId)
    (milestone : MilestoneId) : (plan.extend more).stepsFor group milestone =
      plan.stepsFor group milestone ++ (Plan.mk plan.finalState more).stepsFor group milestone := by
  rw [stepsFor, steps_extend, List.map_append]
  rfl

end Plan

/-! ## One pass over the plan -/

/-- A table whose values each go their own way goes through a list as each of its values does. -/
theorem OrderedMap.get?_foldl_mapValues {κ β ι : Type} [LT κ] [DecidableEq κ]
    (change : κ → β → ι → β) (items : List ι) (map : OrderedMap κ β) (key : κ) :
    (items.foldl (fun map item => map.mapValues fun key value => change key value item) map).get? key =
      (map.get? key).map fun value => items.foldl (change key) value := by
  induction items generalizing map with
  | nil => exact (Option.map_id' ..).symm
  | cons item rest ih =>
    rw [List.foldl_cons, ih, get?_mapValues, Option.map_map]
    rfl

/-- Replay a plan in one pass over its steps, in which each step goes through all milestones. -/
def replayInTurn (plan : Plan) (group : GroupId) (milestones : List MilestoneId)
    (begins ends : Step → Bool) : GroupTimeline :=
  plan.steps.foldl
    (fun timeline step => timeline.mapValues fun milestone item =>
      item.advance begins ends (Plan.view group milestone step))
    (.ofList (milestones.map fun milestone => (milestone, .unset)))

/-- The milestones of one pass do not disturb each other. -/
theorem replayInTurn_eq (plan : Plan) (group : GroupId) (milestones : List MilestoneId)
    (begins ends : Step → Bool) :
    replayInTurn plan group milestones begins ends = replayTrace plan group milestones begins ends := by
  apply OrderedMap.ext_get?
  intro milestone
  rw [replayInTurn, get?_replayTrace]
  have turns := OrderedMap.get?_foldl_mapValues
    (fun milestone item step => TimelineItem.advance begins ends item (Plan.view group milestone step))
    plan.steps (.ofList (milestones.map fun milestone => (milestone, .unset))) milestone
  rw [turns, OrderedMap.get?_ofList_map milestones (fun _ => TimelineItem.unset)]
  split
  · rw [Option.map_some, TimelineItem.ofSteps, Plan.stepsFor_eq, List.foldl_map]
  · rfl

/-- A replay has the given milestones, each with the times that the steps of the plan give it, whichever
others there are; one pass over the plan gives the same. If the plan goes on, no time that is set
changes. -/
theorem replayTrace_exact (plan : Plan) (group : GroupId) (milestones : List MilestoneId)
    (begins ends : Step → Bool) :
    (∀ milestone, milestone ∈ replayTrace plan group milestones begins ends ↔
      milestone ∈ milestones) ∧
    (∀ milestone item, (replayTrace plan group milestones begins ends).get? milestone = some item →
      item.Follows begins ends (plan.stepsFor group milestone)) ∧
    (∀ milestone ∈ milestones, (replayTrace plan group milestones begins ends).get? milestone =
      (replayTrace plan group [milestone] begins ends).get? milestone) ∧
    replayInTurn plan group milestones begins ends =
      replayTrace plan group milestones begins ends ∧
    ∀ more milestone item, (replayTrace plan group milestones begins ends).get? milestone = some item →
      ∃ later, (replayTrace (plan.extend more) group milestones begins ends).get? milestone =
        some later ∧ item.KeptBy later := by
  have found (milestone : MilestoneId) (item : TimelineItem) :
      (replayTrace plan group milestones begins ends).get? milestone = some item ↔
        milestone ∈ milestones ∧
          TimelineItem.ofSteps begins ends (plan.stepsFor group milestone) = item := by
    rw [get?_replayTrace, Option.ite_none_right_eq_some, Option.some.injEq]
  refine ⟨fun milestone => ?_, fun milestone item isItem => ?_, fun milestone member => ?_,
    replayInTurn_eq .., fun more milestone item isItem => ?_⟩
  · simp only [OrderedMap.mem_iff_exists, ← OrderedMap.get?_eq_some_iff, found, exists_and_left,
      exists_eq', and_true]
  · obtain ⟨_, rfl⟩ := (found milestone item).mp isItem
    exact TimelineItem.follows_ofSteps ..
  · rw [get?_replayTrace, get?_replayTrace, if_pos member, if_pos (List.mem_singleton_self milestone)]
  · obtain ⟨member, rfl⟩ := (found milestone item).mp isItem
    refine ⟨_, (get?_replayTrace ..).trans (if_pos member), ?_⟩
    rw [Plan.stepsFor_extend]
    exact TimelineItem.keptBy_ofSteps_append ..

def usesSecond (step : Step) : Bool := ⟨"P2"⟩ ∈ step.allocation

def seenByFirst (step : Step) : Bool := step.milestone = ⟨"M1"⟩

/-- Two milestones that begin with the second step, of which only the first one ends, also when the
plan goes on. -/
theorem replayTrace_exact_rework :
    (replayTrace Plan.rework ⟨"G"⟩ [⟨"M2"⟩, ⟨"M1"⟩, ⟨"M2"⟩] usesSecond seenByFirst).get? ⟨"M1"⟩ =
      some ⟨some Plan.one, some Plan.two⟩ ∧
    (replayTrace Plan.rework ⟨"G"⟩ [⟨"M2"⟩, ⟨"M1"⟩, ⟨"M2"⟩] usesSecond seenByFirst).get? ⟨"M2"⟩ =
      some ⟨some Plan.one, none⟩ ∧
    TimelineItem.Follows usesSecond seenByFirst (Plan.rework.stepsFor ⟨"G"⟩ ⟨"M2"⟩)
      ⟨some Plan.one, none⟩ ∧
    (replayTrace Plan.rework ⟨"G"⟩ [⟨"M2"⟩] usesSecond seenByFirst).get? ⟨"M2"⟩ =
      some ⟨some Plan.one, none⟩ ∧
    ∃ later, (replayTrace (Plan.rework.extend Plan.rework.transitions) ⟨"G"⟩
      [⟨"M2"⟩, ⟨"M1"⟩, ⟨"M2"⟩] usesSecond seenByFirst).get? ⟨"M1"⟩ = some later ∧
        later.start = some Plan.one ∧ later.finish = some Plan.two := by
  obtain ⟨_, follows, alone, _, kept⟩ := replayTrace_exact Plan.rework ⟨"G"⟩
    [⟨"M2"⟩, ⟨"M1"⟩, ⟨"M2"⟩] usesSecond seenByFirst
  have first : (replayTrace Plan.rework ⟨"G"⟩ [⟨"M2"⟩, ⟨"M1"⟩, ⟨"M2"⟩] usesSecond
    seenByFirst).get? ⟨"M1"⟩ = some ⟨some Plan.one, some Plan.two⟩ := by cbv
  have second : (replayTrace Plan.rework ⟨"G"⟩ [⟨"M2"⟩, ⟨"M1"⟩, ⟨"M2"⟩] usesSecond
    seenByFirst).get? ⟨"M2"⟩ = some ⟨some Plan.one, none⟩ := by cbv
  obtain ⟨later, found, keeps⟩ := kept Plan.rework.transitions _ _ first
  exact ⟨first, second, follows _ _ second, (alone ⟨"M2"⟩ (by decide)).symm.trans second, later, found,
    keeps.start _ rfl, keeps.finish _ rfl⟩

end ProcessFlow
