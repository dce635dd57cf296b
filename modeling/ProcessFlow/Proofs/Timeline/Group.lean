import Mathlib
import ProcessFlow.Proofs.Timeline.Overlap
import ProcessFlow.Proofs.Timeline.Replay

/-! # The timeline of a group

The replay records every milestone of the group as the plan has it, and the removal of overlaps
keeps this: it changes only ends, and a new end is the start of another milestone.
-/

namespace ProcessFlow

open Relation

namespace MilestoneTable

variable {table : MilestoneTable} {group : GroupId}

/-- The group tracks the milestone of this identifier. -/
def Tracks (table : MilestoneTable) (group : GroupId) (milestone : Milestone) : Prop :=
  table.get? milestone.id = some milestone ∧ group ∈ milestone.groups

theorem mem_inGroup {milestone : Milestone} :
    milestone ∈ table.inGroup group ↔ table.Tracks group milestone := by
  simp only [inGroup, Tracks, List.mem_filter, Milestone.isTrackedBy, decide_eq_true_eq, toList,
    OrderedMap.values, List.mem_map, get?]
  apply and_congr_left
  intro _
  constructor
  · rintro ⟨⟨id, _⟩, member, rfl⟩
    have found := OrderedMap.get?_eq_some_iff.mpr member
    rw [table.keyed _ _ found]
    exact found
  · intro found
    exact ⟨_, OrderedMap.get?_eq_some_iff.mp found, rfl⟩

end MilestoneTable

namespace Plan

variable {plan : Plan} {table : MilestoneTable} {group : GroupId} {timeline : GroupTimeline}
  {milestone : Milestone} {item : TimelineItem}

/-! ## The replay for a group -/

theorem allocationTouches_iff {step : ProjectState × Transition} {id : MilestoneId} :
    allocationTouches milestone (view group id step) = true ↔ step.2.Touches milestone := by
  simp only [allocationTouches, List.any_eq_true, decide_eq_true_eq, OrderedSet.mem_toList]
  rfl

/-- At the end of the plan every process has completed as often as it ever will. -/
theorem reworkFinished_final {step : ProjectState × Transition} {id : MilestoneId}
    (last : step.2.next = plan.finalState) :
    reworkFinished milestone plan.finalState (view group id step) = true := by
  simp [reworkFinished, view, last]

theorem mem_rawTimeline {id : MilestoneId} : id ∈ plan.rawTimeline table group ↔
    ∃ milestone, table.Tracks group milestone ∧ milestone.id = id := by
  have listed : id ∈ (table.inGroup group).map Milestone.id ↔
      ∃ milestone, table.Tracks group milestone ∧ milestone.id = id := by
    simp only [List.mem_map, MilestoneTable.mem_inGroup]
  rw [← listed, ← not_iff_not, ← OrderedMap.get?_eq_none_iff, rawTimeline, get?_replayTrace]
  split
  · rename_i present
    simp [present]
  · rename_i absent
    simp [absent]

theorem records_rawTimeline (timed : plan.Timed) (tracked : table.Tracks group milestone)
    (found : (plan.rawTimeline table group).get? milestone.id = some item) :
    plan.Records milestone item := by
  have listed : milestone.id ∈ (table.inGroup group).map Milestone.id :=
    List.mem_map_of_mem (MilestoneTable.mem_inGroup.mpr tracked)
  rw [rawTimeline, get?_replayTrace, if_pos listed] at found
  cases found
  apply records_ofSteps timed
  · intro step
    change (table.get? milestone.id).any _ = true ↔ _
    rw [tracked.1, Option.any_some]
    exact allocationTouches_iff
  · intro step last
    change (table.get? milestone.id).any _ = true
    rw [tracked.1, Option.any_some]
    exact reworkFinished_final last

/-- The times of the replay are times of the plan. -/
theorem dated_rawTimeline (timed : plan.Timed) {id : MilestoneId} {time : Binary64}
    (set : (plan.rawTimeline table group).StartsAt id time ∨
      (plan.rawTimeline table group).EndsAt id time) : ∃ state ∈ plan.states, state.time = time := by
  have recorded {item : TimelineItem} (found : (plan.rawTimeline table group).get? id = some item) :
      ∃ milestone, plan.Records milestone item := by
    have member : id ∈ plan.rawTimeline table group := by
      rw [OrderedMap.mem_iff_exists]
      exact ⟨item, OrderedMap.get?_eq_some_iff.mp found⟩
    obtain ⟨milestone, tracked, rfl⟩ := mem_rawTimeline.mp member
    exact ⟨milestone, records_rawTimeline timed tracked found⟩
  rcases set with ⟨item, found, starts⟩ | ⟨item, found, ends⟩
  · obtain ⟨milestone, records⟩ := recorded found
    exact records.dated time (.inl starts)
  · obtain ⟨milestone, records⟩ := recorded found
    exact records.dated time (.inr ends)

theorem numeric_rawTimeline (timed : plan.Timed) : (plan.rawTimeline table group).Numeric := by
  intro id time set
  obtain ⟨state, member, rfl⟩ := dated_rawTimeline timed set
  exact Binary64.isNaN_of_isFinite (timed.finite state member)

/-! ## Without overlaps -/

/-- A milestone without overlap is still recorded when its end is clamped. -/
theorem Records.clamp {raw : GroupTimeline} {graph : Graph MilestoneId}
    (records : plan.Records milestone item) (found : raw.get? milestone.id = some item)
    (apart : raw.overlapOf? group graph milestone.id item = none) (numeric : raw.Numeric)
    (dated : ∀ id time, raw.StartsAt id time ∨ raw.EndsAt id time →
      ∃ state ∈ plan.states, state.time = time) :
    plan.Records milestone (raw.clamp graph milestone.id item) := by
  rcases records.whole with rfl | ⟨start, finish, rfl⟩
  · exact records
  · have starts : raw.StartsAt milestone.id start := ⟨_, found, rfl⟩
    have ends : raw.EndsAt milestone.id finish := ⟨_, found, rfl⟩
    have choice := (GroupTimeline.latestFinish_isMinimum numeric graph ends).member
    rw [GroupTimeline.clamp_set]
    constructor
    · exact .inr ⟨_, _, rfl⟩
    · exact records.reached
    · exact records.begins
    · rintro time (same | same)
      · cases same
        exact dated milestone.id start (.inl starts)
      · cases same
        rcases choice with same | ⟨later, _, laterStarts⟩
        · rw [same]
          exact dated milestone.id finish (.inr ends)
        · exact dated later _ (.inl laterStarts)
    · intro first last sameStart sameFinish
      cases sameStart
      cases sameFinish
      rcases choice with same | ⟨later, depends, laterStarts⟩
      · rw [same]
        exact records.ordered start finish rfl rfl
      · have isLater := GroupTimeline.mem_laterStarts.mpr ⟨depends, laterStarts⟩
        have notBefore := GroupTimeline.overlapOf?_eq_none.mp apart _ isLater
        exact Binary64.atLeast_of_not_less (numeric later _ (.inl laterStarts))
          (numeric milestone.id start (.inl starts)) notBefore

/-- The timeline of a group has the milestones that the group tracks. It records each of them as the
plan has it, and a milestone ends before any that depends on it starts, over however many edges. -/
theorem groupTimeline_sound (plan : Plan) (table : MilestoneTable) (group : GroupId)
    (timeline : GroupTimeline) (valid : plan.validate = .ok ())
    (built : plan.groupTimeline table group = .ok timeline) :
    (∀ id, id ∈ timeline ↔ ∃ milestone, table.Tracks group milestone ∧ milestone.id = id) ∧
    (∀ milestone item, table.Tracks group milestone → timeline.get? milestone.id = some item →
      plan.Records milestone item) ∧
    ∀ earlier later finish start, TransGen (table.dependencyGraph group).Joins earlier later →
      timeline.EndsAt earlier finish → timeline.StartsAt later start →
      start.atLeast finish = true := by
  have timed := timed_of_validate valid
  have numeric : (plan.rawTimeline table group).Numeric := numeric_rawTimeline timed
  obtain ⟨_, apart, rfl⟩ := GroupTimeline.removeOverlaps_eq_ok_iff.mp built
  have members (id : MilestoneId) :
      id ∈ (plan.rawTimeline table group).clampAll (table.dependencyGraph group) ↔
        ∃ milestone, table.Tracks group milestone ∧ milestone.id = id :=
    GroupTimeline.mem_clampAll.trans mem_rawTimeline
  have recorded (milestone : Milestone) (item : TimelineItem)
      (tracked : table.Tracks group milestone)
      (found : ((plan.rawTimeline table group).clampAll (table.dependencyGraph group)).get?
        milestone.id = some item) : plan.Records milestone item := by
    obtain ⟨old, foundOld, rfl⟩ := GroupTimeline.get?_clampAll.mp found
    have records := records_rawTimeline timed tracked foundOld
    exact records.clamp foundOld (apart _ _ foundOld) numeric fun _ _ => dated_rawTimeline timed
  refine ⟨members, recorded, ?_⟩
  rintro earlier later finish start depends ⟨item, found, ends⟩ starts
  have present := OrderedMap.mem_iff_exists.mpr ⟨item, OrderedMap.get?_eq_some_iff.mp found⟩
  obtain ⟨milestone, tracked, rfl⟩ := (members earlier).mp present
  rcases (recorded milestone item tracked found).whole with rfl | ⟨first, last, rfl⟩
  · cases ends
  · cases ends
    exact GroupTimeline.atLeast_of_clampAll numeric found depends
      (GroupTimeline.startsAt_clampAll.mp starts)

/-- Two milestones of one group, of which the second depends on the first. -/
def stages : MilestoneTable :=
  (MilestoneTable.empty.insert ⟨⟨"M1"⟩, .ofList [⟨"P1"⟩], .ofList [⟨"M2"⟩], .ofList [⟨"G"⟩]⟩).insert
    ⟨⟨"M2"⟩, .ofList [⟨"P2"⟩], ∅, .ofList [⟨"G"⟩]⟩

/-- One and two, the times after the steps of the plan below. -/
def one : Binary64 := .ofBits 0x3FF0000000000000
def two : Binary64 := .ofBits 0x4000000000000000

/-- The process of the first milestone goes on while that of the second is at work. -/
def rework : Plan where
  initial := ⟨.ofBits 0, ∅⟩
  transitions := [
    ⟨.ofList [(⟨"P1"⟩, ⟨∅⟩)], ⟨one, .ofList [(⟨"P1"⟩, 1)]⟩⟩,
    ⟨.ofList [(⟨"P1"⟩, ⟨∅⟩), (⟨"P2"⟩, ⟨∅⟩)], ⟨two, .ofList [(⟨"P1"⟩, 2), (⟨"P2"⟩, 1)]⟩⟩]

/-- The first milestone ends where the second starts. -/
def reworkTimeline : GroupTimeline :=
  .ofList [(⟨"M1"⟩, ⟨some (.ofBits 0), some one⟩), (⟨"M2"⟩, ⟨some one, some two⟩)]

theorem groupTimeline_sound_rework : rework.validate = .ok () ∧
    rework.groupTimeline stages ⟨"G"⟩ = .ok reworkTimeline ∧
    (∀ milestone item, stages.Tracks ⟨"G"⟩ milestone →
      reworkTimeline.get? milestone.id = some item → rework.Records milestone item) ∧
    TransGen (stages.dependencyGraph ⟨"G"⟩).Joins ⟨"M1"⟩ ⟨"M2"⟩ ∧
    reworkTimeline.EndsAt ⟨"M1"⟩ one ∧ reworkTimeline.StartsAt ⟨"M2"⟩ one ∧
    one.atLeast one = true := by
  have valid : rework.validate = .ok () := by cbv
  have built : rework.groupTimeline stages ⟨"G"⟩ = .ok reworkTimeline := by cbv
  have depends : TransGen (stages.dependencyGraph ⟨"G"⟩).Joins ⟨"M1"⟩ ⟨"M2"⟩ := .single (by decide)
  have ends : reworkTimeline.EndsAt ⟨"M1"⟩ one := ⟨_, by cbv, rfl⟩
  have starts : reworkTimeline.StartsAt ⟨"M2"⟩ one := ⟨_, by cbv, rfl⟩
  obtain ⟨_, records, ordered⟩ := groupTimeline_sound rework stages ⟨"G"⟩ reworkTimeline valid built
  exact ⟨valid, built, records, depends, ends, starts, ordered _ _ _ _ depends ends starts⟩

end Plan

end ProcessFlow
