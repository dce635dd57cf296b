import ProcessFlow.Graph.Circuit
import ProcessFlow.Graph.Reach
import ProcessFlow.Milestone
import ProcessFlow.Plan

/-! # Timelines of milestones

The timeline of a group gives each of its milestones a start and an end in business time. It comes
from a plan in two phases. The replay takes the time before the first step that begins a milestone
as its start, and the time after the first step from there on that ends it as its end. The removal
of overlaps then lets no milestone last beyond the start of a milestone that depends on it, and
refuses one that starts after such a milestone.
-/

namespace ProcessFlow

/-- The start and the end of a milestone, each unset until it is reached. -/
structure TimelineItem where
  start : Option Binary64
  finish : Option Binary64
deriving DecidableEq

def TimelineItem.unset : TimelineItem := ⟨none, none⟩

abbrev GroupTimeline := OrderedMap MilestoneId TimelineItem

abbrev Timeline := OrderedMap GroupId GroupTimeline

/-- Why a timeline cannot be built. -/
inductive TimelineError where
  /-- A milestone starts after one that depends on it. -/
  | overlap (group : GroupId) (earlier later : MilestoneId) (earlierStart laterStart : Binary64)
  /-- Milestones of a group depend on one another in turn. -/
  | cyclicMilestones (group : GroupId) (cycles : List (List MilestoneId))
  /-- The times of the plan are no order of events. -/
  | invalidPlan (error : PlanError)
deriving DecidableEq

namespace TimelineError

def cyclesText (cycles : List (List MilestoneId)) : String :=
  String.intercalate "; " (cycles.map fun cycle => String.intercalate " -> " (cycle.map Ident.text))

def message : TimelineError → String
  | .overlap group earlier later earlierStart laterStart =>
    "Overlapping milestone in group " ++ group.text ++ ": " ++ earlier.text ++ " starts at " ++
      earlierStart.text ++ " after its successor " ++ later.text ++ " starts at " ++ laterStart.text
  | .cyclicMilestones group cycles =>
    "Milestone dependencies of group " ++ group.text ++ " are cyclic: " ++ cyclesText cycles
  | .invalidPlan error => "Invalid plan: " ++ error.message

/-- The messages of an error and of what caused it, outermost first. -/
def chain (error : TimelineError) : List String :=
  match error with
  | .invalidPlan cause => [error.message, cause.message]
  | _ => [error.message]

end TimelineError

/-! ## Replay -/

/-- One step of a plan as one milestone of a group sees it. -/
structure Step where
  group : GroupId
  milestone : MilestoneId
  previous : ProjectState
  allocation : Allocation
  next : ProjectState

def Plan.stepsFor (plan : Plan) (group : GroupId) (milestone : MilestoneId) : List Step :=
  plan.steps.map fun (previous, transition) =>
    ⟨group, milestone, previous, transition.allocation, transition.next⟩

namespace TimelineItem

/-- Go on by one step, which may set the start, and then the end. -/
def advance (begins ends : Step → Bool) (item : TimelineItem) (step : Step) : TimelineItem :=
  let start := if item.start.isNone && begins step then some step.previous.time else item.start
  let finish :=
    if start.isSome && item.finish.isNone && ends step then some step.next.time else item.finish
  ⟨start, finish⟩

/-- The times that steps give a milestone. -/
def ofSteps (begins ends : Step → Bool) (steps : List Step) : TimelineItem :=
  steps.foldl (advance begins ends) unset

end TimelineItem

/-- Replay a plan and record when each of the milestones begins and ends. -/
def replayTrace (plan : Plan) (group : GroupId) (milestones : List MilestoneId)
    (begins ends : Step → Bool) : GroupTimeline :=
  .ofList (milestones.map fun milestone =>
    (milestone, TimelineItem.ofSteps begins ends (plan.stepsFor group milestone)))

/-- The step allocates resources to a process of the milestone. -/
def allocationTouches (milestone : Milestone) (step : Step) : Bool :=
  milestone.processes.toList.any (· ∈ step.allocation)

/-- After the step every process of the milestone has completed as often as it ever will. -/
def reworkFinished (milestone : Milestone) (final : ProjectState) (step : Step) : Bool :=
  milestone.processes.toList.all fun process =>
    final.completions process ≤ step.next.completions process

/-! ## Overlaps -/

namespace GroupTimeline

/-- The starts of the milestones that depend on a milestone, in the order of their identifiers. -/
def laterStarts (raw : GroupTimeline) (graph : Graph MilestoneId) (earlier : MilestoneId) :
    List (MilestoneId × Binary64) :=
  (graph.descendants earlier).toList.filterMap fun later =>
    ((raw.get? later).bind TimelineItem.start).map fun start => (later, start)

/-- The milestones that others may depend on. -/
def mayOverlap (graph : Graph MilestoneId) (milestone : MilestoneId) : Bool :=
  milestone ∈ graph && milestone ∉ graph.maximals

/-- The first milestone that depends on a milestone and starts before it. -/
def overlapOf? (raw : GroupTimeline) (group : GroupId) (graph : Graph MilestoneId)
    (earlier : MilestoneId) (item : TimelineItem) : Option TimelineError :=
  match item with
  | ⟨some start, some _⟩ =>
    if mayOverlap graph earlier then
      ((raw.laterStarts graph earlier).find? fun later => later.2.less start).map fun later =>
        .overlap group earlier later.1 start later.2
    else none
  | _ => none

/-- A milestone with its end no later than the starts of the milestones that depend on it. -/
def clamp (raw : GroupTimeline) (graph : Graph MilestoneId) (earlier : MilestoneId)
    (item : TimelineItem) : TimelineItem :=
  match item with
  | ⟨some start, some finish⟩ =>
    if mayOverlap graph earlier then
      ⟨some start, some ((raw.laterStarts graph earlier).foldl
        (fun finish later => finish.least later.2) finish)⟩
    else item
  | _ => item

/-- Let each milestone end no later than those depending on it start. Cycles of dependencies are
refused, and so is a milestone that starts after one depending on it. -/
def removeOverlaps (group : GroupId) (graph : Graph MilestoneId) (raw : GroupTimeline) :
    Except TimelineError GroupTimeline :=
  match graph.cycles with
  | [] =>
    match raw.entries.findSome? fun entry => raw.overlapOf? group graph entry.1 entry.2 with
    | some overlap => .error overlap
    | none => .ok (raw.mapValues (raw.clamp graph))
  | cycles => .error (.cyclicMilestones group cycles)

end GroupTimeline

/-! ## Timelines of a milestone table -/

namespace Plan

def checkForTimeline (plan : Plan) : Except TimelineError Unit :=
  plan.validate.mapError .invalidPlan

/-- The times at which the milestones of a group begin and end, overlaps included. A milestone
begins with the first step that allocates resources to one of its processes, and ends when they have
completed as often as they ever will. -/
def rawTimeline (plan : Plan) (table : MilestoneTable) (group : GroupId) : GroupTimeline :=
  replayTrace plan group ((table.inGroup group).map Milestone.id)
    (fun step => (table.get? step.milestone).any (allocationTouches · step))
    (fun step => (table.get? step.milestone).any (reworkFinished · plan.finalState step))

def groupTimeline (plan : Plan) (table : MilestoneTable) (group : GroupId) :
    Except TimelineError GroupTimeline :=
  (plan.rawTimeline table group).removeOverlaps group (table.dependencyGraph group)

/-- The timelines of all groups of a table, or the error of the first group that has none. -/
def timeline (plan : Plan) (table : MilestoneTable) : Except TimelineError Timeline := do
  let timelines ← table.groups.toList.mapM fun group =>
    (plan.groupTimeline table group).map fun timeline => (group, timeline)
  return .ofList timelines

end Plan

end ProcessFlow
