import ProcessFlow.Proofs.Graph.Dangling
import ProcessFlow.Proofs.Timeline.Table

/-! # What the timeline of a group depends on

The timeline of a group depends on the milestones that the group tracks, on their processes, and on
their successors within the group. Rows of other groups and successors outside the group make no
difference, also to the error where there is no timeline. The timelines of all groups are those of
each, or the error of the least group that has none.
-/

namespace ProcessFlow

/-! ## Tables as a group sees them -/

namespace MilestoneTable

variable {table first second : MilestoneTable} {group : GroupId} {id other : MilestoneId}
  {milestone : Milestone}

def IsTracked (table : MilestoneTable) (group : GroupId) (id : MilestoneId) : Prop :=
  ∃ milestone, table.Tracks group milestone ∧ milestone.id = id

/-- A group tracks the same milestones in both tables, with the same processes and with the same
successors among those that it tracks. -/
structure AgreesOn (first second : MilestoneTable) (group : GroupId) : Prop where
  tracked : ∀ id, first.IsTracked group id ↔ second.IsTracked group id
  processes : ∀ left right, first.Tracks group left → second.Tracks group right →
    left.id = right.id → left.processes = right.processes
  successors : ∀ left right, first.Tracks group left → second.Tracks group right →
    left.id = right.id → ∀ id, first.IsTracked group id →
      (id ∈ left.successors ↔ id ∈ right.successors)

theorem mem_map_inGroup : id ∈ (table.inGroup group).map Milestone.id ↔ table.IsTracked group id := by
  simp only [List.mem_map, mem_inGroup, IsTracked]

theorem mem_nodes_dependencyGraph :
    id ∈ (table.dependencyGraph group).nodes ↔ table.IsTracked group id := by
  rw [dependencyGraph, Graph.ofLists, OrderedSet.mem_ofList, mem_map_inGroup]

theorem joins_dependencyGraph : (table.dependencyGraph group).Joins id other ↔
    (∃ milestone, table.Tracks group milestone ∧ milestone.id = id ∧ other ∈ milestone.successors) ∧
      table.IsTracked group other := by
  rw [Graph.Joins, Graph.mem_iff, Graph.mem_iff, mem_nodes_dependencyGraph,
    mem_nodes_dependencyGraph, dependencyGraph, Graph.ofLists, OrderedSet.mem_ofList]
  simp only [List.mem_flatMap, List.mem_map, mem_inGroup, Edge.mk.injEq, OrderedSet.mem_toList]
  constructor
  · rintro ⟨⟨milestone, tracks, _, isSuccessor, rfl, rfl⟩, _, tracked⟩
    exact ⟨⟨milestone, tracks, rfl, isSuccessor⟩, tracked⟩
  · rintro ⟨⟨milestone, tracks, rfl, isSuccessor⟩, tracked⟩
    exact ⟨⟨milestone, tracks, other, isSuccessor, rfl, rfl⟩, ⟨milestone, tracks, rfl⟩, tracked⟩

theorem AgreesOn.nodes_eq (agrees : first.AgreesOn second group) :
    (first.dependencyGraph group).nodes = (second.dependencyGraph group).nodes := by
  ext id
  rw [mem_nodes_dependencyGraph, mem_nodes_dependencyGraph, agrees.tracked]

theorem AgreesOn.joins_eq (agrees : first.AgreesOn second group) :
    (first.dependencyGraph group).Joins = (second.dependencyGraph group).Joins := by
  funext id other
  rw [eq_iff_iff, joins_dependencyGraph, joins_dependencyGraph]
  constructor
  · rintro ⟨⟨left, tracks, rfl, isSuccessor⟩, tracked⟩
    obtain ⟨right, tracksRight, same⟩ := (agrees.tracked left.id).mp ⟨left, tracks, rfl⟩
    have kept := agrees.successors left right tracks tracksRight same.symm other tracked
    exact ⟨⟨right, tracksRight, same, kept.mp isSuccessor⟩, (agrees.tracked other).mp tracked⟩
  · rintro ⟨⟨right, tracksRight, rfl, isSuccessor⟩, tracked⟩
    have trackedFirst := (agrees.tracked other).mpr tracked
    obtain ⟨left, tracks, same⟩ := (agrees.tracked right.id).mpr ⟨right, tracksRight, rfl⟩
    have kept := agrees.successors left right tracks tracksRight same other trackedFirst
    exact ⟨⟨left, tracks, same, kept.mpr isSuccessor⟩, trackedFirst⟩

/-- The milestones that a group tracks, without the successors that it does not. -/
def within (table : MilestoneTable) (group : GroupId) : MilestoneTable where
  milestones := (table.milestones.filter fun _ milestone => milestone.isTrackedBy group).mapValues
    fun _ milestone =>
      { milestone with successors := milestone.successors.filter (· ∈ table.dependencyGraph group) }
  keyed id milestone found := by
    rw [OrderedMap.get?_mapValues, Option.map_eq_some_iff] at found
    obtain ⟨old, found, rfl⟩ := found
    have entry := OrderedMap.get?_eq_some_iff.mp found
    exact table.keyed id old (OrderedMap.get?_eq_some_iff.mpr (List.mem_filter.mp entry).1)

theorem tracks_within : (table.within group).Tracks group milestone ↔
    ∃ old, table.Tracks group old ∧ milestone =
      { old with successors := old.successors.filter (· ∈ table.dependencyGraph group) } := by
  have found (id : MilestoneId) (old : Milestone) :
      (table.milestones.filter fun _ milestone => milestone.isTrackedBy group).get? id = some old ↔
        table.get? id = some old ∧ group ∈ old.groups := by
    rw [get?, OrderedMap.get?_eq_some_iff, OrderedMap.get?_eq_some_iff, OrderedMap.filter,
      List.mem_filter, Milestone.isTrackedBy, decide_eq_true_eq]
  simp only [Tracks, get?, within, OrderedMap.get?_mapValues, Option.map_eq_some_iff]
  constructor
  · rintro ⟨⟨old, isOld, rfl⟩, _⟩
    exact ⟨old, (found _ _).mp isOld, rfl⟩
  · rintro ⟨old, isOld, rfl⟩
    exact ⟨⟨old, (found _ _).mpr isOld, rfl⟩, isOld.2⟩

theorem agreesOn_within (table : MilestoneTable) (group : GroupId) :
    table.AgreesOn (table.within group) group where
  tracked id := by
    constructor
    · rintro ⟨old, tracks, rfl⟩
      exact ⟨_, tracks_within.mpr ⟨old, tracks, rfl⟩, rfl⟩
    · rintro ⟨_, tracks, rfl⟩
      obtain ⟨old, isOld, rfl⟩ := tracks_within.mp tracks
      exact ⟨old, isOld, rfl⟩
  processes left right isLeft isRight same := by
    obtain ⟨old, isOld, rfl⟩ := tracks_within.mp isRight
    obtain rfl : left = old := Option.some.inj (isLeft.1.symm.trans (same ▸ isOld.1))
    rfl
  successors left right isLeft isRight same id tracked := by
    obtain ⟨old, isOld, rfl⟩ := tracks_within.mp isRight
    obtain rfl : left = old := Option.some.inj (isLeft.1.symm.trans (same ▸ isOld.1))
    rw [OrderedSet.mem_filter, decide_eq_true_eq, Graph.mem_iff, mem_nodes_dependencyGraph]
    exact (and_iff_left tracked).symm

end MilestoneTable

/-! ## Timelines -/

theorem TimelineItem.ofSteps_congr {begins ends otherBegins otherEnds : Step → Bool}
    {steps : List Step} (sameBegins : ∀ step ∈ steps, begins step = otherBegins step)
    (sameEnds : ∀ step ∈ steps, ends step = otherEnds step) :
    ofSteps begins ends steps = ofSteps otherBegins otherEnds steps := by
  apply List.foldl_ext
  intro item step member
  simp only [advance, sameBegins step member, sameEnds step member]

namespace Plan

variable {first second : MilestoneTable} {group : GroupId}

theorem rawTimeline_congr (plan : Plan) (agrees : first.AgreesOn second group) :
    plan.rawTimeline first group = plan.rawTimeline second group := by
  apply OrderedMap.ext_get?
  intro id
  rw [rawTimeline, rawTimeline, get?_replayTrace, get?_replayTrace]
  have listed : id ∈ (first.inGroup group).map Milestone.id ↔
      id ∈ (second.inGroup group).map Milestone.id := by
    rw [MilestoneTable.mem_map_inGroup, MilestoneTable.mem_map_inGroup, agrees.tracked]
  rw [← if_congr listed rfl rfl]
  split
  · rename_i isListed
    obtain ⟨left, tracks, rfl⟩ := MilestoneTable.mem_map_inGroup.mp isListed
    obtain ⟨right, tracksRight, same⟩ := (agrees.tracked left.id).mp ⟨left, tracks, rfl⟩
    have processes := agrees.processes left right tracks tracksRight same.symm
    have foundRight := tracksRight.1
    rw [same] at foundRight
    congr 1
    apply TimelineItem.ofSteps_congr
    · intro step member
      obtain ⟨_, _, rfl⟩ := List.mem_map.mp member
      simp only [tracks.1, foundRight, Option.any_some, allocationTouches, processes]
    · intro step member
      obtain ⟨_, _, rfl⟩ := List.mem_map.mp member
      simp only [tracks.1, foundRight, Option.any_some, reworkFinished, processes]
  · rfl

theorem groupTimeline_congr (plan : Plan) (agrees : first.AgreesOn second group) :
    plan.groupTimeline first group = plan.groupTimeline second group := by
  rw [groupTimeline, groupTimeline, rawTimeline_congr plan agrees,
    GroupTimeline.removeOverlaps_congr (Graph.cycles_congr agrees.nodes_eq agrees.joins_eq)
      (congrArg Relation.TransGen agrees.joins_eq)]

/-- The timeline of a group, or its error, is the same for tables that look the same to the group; so
it is that of the rows of the group alone, without successors outside the group. The timelines of all
groups exist exactly if each does. They are then those of each group, and otherwise there is the error
of the least group that has one. -/
theorem groupTimeline_local (plan : Plan) {first second : MilestoneTable} {group : GroupId}
    (agrees : first.AgreesOn second group) :
    plan.groupTimeline first group = plan.groupTimeline second group ∧
    (∀ (table : MilestoneTable) (group : GroupId),
      plan.groupTimeline table group = plan.groupTimeline (table.within group) group) ∧
    ∀ table : MilestoneTable,
      ((∃ timeline, plan.timeline table = .ok timeline) ↔
        ∀ group ∈ table.groups, ∃ items, plan.groupTimeline table group = .ok items) ∧
      (∀ timeline, plan.timeline table = .ok timeline → ∀ group items,
        timeline.get? group = some items ↔
          group ∈ table.groups ∧ plan.groupTimeline table group = .ok items) ∧
      ∀ error, plan.timeline table = .error error ↔
        ∃ group ∈ table.groups, plan.groupTimeline table group = .error error ∧
          ∀ earlier ∈ table.groups, earlier < group →
            ∃ items, plan.groupTimeline table earlier = .ok items :=
  ⟨plan.groupTimeline_congr agrees,
    fun table group => plan.groupTimeline_congr (table.agreesOn_within group),
    fun _ => ⟨exists_timeline_iff, fun _ built _ _ => get?_timeline built,
      fun _ => timeline_eq_error_iff⟩⟩

/-- The two stages beside a milestone of another group, which the first stage has as a successor and
which leads back to it. -/
def stagesWithDetour : MilestoneTable :=
  (stages.insert
    ⟨⟨"M1"⟩, .ofList [⟨"P1"⟩], .ofList [⟨"M2"⟩, ⟨"M3"⟩], .ofList [⟨"G"⟩]⟩).insert
    ⟨⟨"M3"⟩, .ofList [⟨"P2"⟩], .ofList [⟨"M1"⟩], .ofList [⟨"H"⟩]⟩

theorem agreesOn_stagesWithDetour : stages.AgreesOn stagesWithDetour ⟨"G"⟩ where
  tracked id := by
    have same : (stages.inGroup ⟨"G"⟩).map Milestone.id =
        (stagesWithDetour.inGroup ⟨"G"⟩).map Milestone.id := by cbv
    rw [← MilestoneTable.mem_map_inGroup, same, MilestoneTable.mem_map_inGroup]
  processes left right isLeft isRight := by
    have same : ∀ left ∈ stages.inGroup ⟨"G"⟩, ∀ right ∈ stagesWithDetour.inGroup ⟨"G"⟩,
        left.id = right.id → left.processes = right.processes := by decide +kernel
    exact same left (MilestoneTable.mem_inGroup.mpr isLeft) right
      (MilestoneTable.mem_inGroup.mpr isRight)
  successors left right isLeft isRight same id tracked := by
    have kept : ∀ left ∈ stages.inGroup ⟨"G"⟩, ∀ right ∈ stagesWithDetour.inGroup ⟨"G"⟩,
        left.id = right.id → ∀ id ∈ (stages.inGroup ⟨"G"⟩).map Milestone.id,
          (id ∈ left.successors ↔ id ∈ right.successors) := by decide +kernel
    exact kept left (MilestoneTable.mem_inGroup.mpr isLeft) right
      (MilestoneTable.mem_inGroup.mpr isRight) same id (MilestoneTable.mem_map_inGroup.mpr tracked)

/-- The detour leaves the timeline as it is. -/
theorem groupTimeline_local_stagesWithDetour :
    stages.AgreesOn stagesWithDetour ⟨"G"⟩ ∧
    rework.groupTimeline stagesWithDetour ⟨"G"⟩ = .ok reworkTimeline ∧
    rework.groupTimeline (stagesWithDetour.within ⟨"G"⟩) ⟨"G"⟩ = .ok reworkTimeline := by
  obtain ⟨same, alone, _⟩ := groupTimeline_local rework agreesOn_stagesWithDetour
  have built : rework.groupTimeline stages ⟨"G"⟩ = .ok reworkTimeline := by cbv
  have builtBeside := same.symm.trans built
  exact ⟨agreesOn_stagesWithDetour, builtBeside, (alone _ _).symm.trans builtBeside⟩

end Plan

end ProcessFlow
