import ProcessFlow.Proofs.Timeline.Group
import ProcessFlow.Proofs.Traversal

/-! # The timelines of all groups

The timeline of a table holds the timeline of each group; where a group has none, there is the error
of the least such group instead. In each of them no milestone ends before it starts, and every
milestone ends before any that depends on it starts.
-/

namespace ProcessFlow

open Relation

namespace Plan

variable {plan : Plan} {table : MilestoneTable} {group : GroupId} {items : GroupTimeline}
  {timeline : Timeline}

/-- The timelines of all groups fail as the first group that fails. -/
theorem failure?_timeline (plan : Plan) (table : MilestoneTable) : failure? (plan.timeline table) =
    table.groups.toList.findSome? fun group => failure? (plan.groupTimeline table group) := by
  rw [timeline, bind_pure_comp]
  refine (failure?_map _ _).trans ?_
  simp only [failure?_mapM, failure?_map]

theorem exists_timeline_iff : (∃ timeline, plan.timeline table = .ok timeline) ↔
    ∀ group ∈ table.groups, ∃ items, plan.groupTimeline table group = .ok items := by
  rw [← failure?_eq_none_iff, failure?_timeline, List.findSome?_eq_none_iff]
  simp only [failure?_eq_none_iff, OrderedSet.mem_toList]

theorem timeline_eq_error_iff {error : TimelineError} : plan.timeline table = .error error ↔
    ∃ group ∈ table.groups, plan.groupTimeline table group = .error error ∧
      ∀ earlier ∈ table.groups, earlier < group →
        ∃ items, plan.groupTimeline table earlier = .ok items := by
  rw [← failure?_eq_some_iff, failure?_timeline, OrderedSet.findSome?_toList_eq_some_iff]
  simp only [failure?_eq_some_iff, failure?_eq_none_iff]

/-- The timelines of all groups hold the timeline of each. -/
theorem get?_timeline (built : plan.timeline table = .ok timeline) : timeline.get? group = some items ↔
      group ∈ table.groups ∧ plan.groupTimeline table group = .ok items := by
  have every := exists_timeline_iff.mp ⟨timeline, built⟩
  choose! itemsOf computed using every
  have entries : (table.groups.toList.mapM fun group =>
      (plan.groupTimeline table group).map fun timeline => (group, timeline)) =
        .ok (table.groups.toList.map fun group => (group, itemsOf group)) := by
    apply mapM_of_ok
    intro group member
    rw [computed group member]
    rfl
  rw [Plan.timeline, entries] at built
  cases built
  rw [OrderedMap.get?_ofList_map]
  split
  · rename_i member
    rw [computed group member]
    simp [OrderedSet.mem_toList.mp member]
  · rename_i missing
    simp [OrderedSet.mem_toList.not.mp missing]

/-- Every milestone of a timeline is recorded as the plan has it. -/
theorem exists_records (timed : plan.Timed) (built : plan.groupTimeline table group = .ok items)
    {id : MilestoneId} {item : TimelineItem} (found : items.get? id = some item) :
    ∃ milestone, plan.Records milestone item := by
  obtain ⟨_, apart, rfl⟩ := GroupTimeline.removeOverlaps_eq_ok_iff.mp built
  obtain ⟨old, foundOld, rfl⟩ := GroupTimeline.get?_clampAll.mp found
  have present : id ∈ plan.rawTimeline table group :=
    OrderedMap.mem_iff_exists.mpr ⟨old, OrderedMap.get?_eq_some_iff.mp foundOld⟩
  obtain ⟨milestone, tracked, rfl⟩ := mem_rawTimeline.mp present
  have records := records_rawTimeline timed tracked foundOld
  exact ⟨milestone, records.clamp foundOld (apart _ _ foundOld) (numeric_rawTimeline timed)
    fun _ _ => dated_rawTimeline timed⟩

/-- No milestone ends before it starts. -/
theorem atLeast_of_item (timed : plan.Timed) (built : plan.groupTimeline table group = .ok items)
    {id : MilestoneId} {start finish : Binary64} (starts : items.StartsAt id start)
    (ends : items.EndsAt id finish) : finish.atLeast start = true := by
  obtain ⟨item, found, starts⟩ := starts
  obtain ⟨same, foundSame, ends⟩ := ends
  obtain rfl : item = same := Option.some.inj (found.symm.trans foundSame)
  obtain ⟨milestone, records⟩ := exists_records timed built found
  exact records.ordered start finish starts ends

/-- No milestone starts before one that it depends on has ended. -/
theorem atLeast_of_depends (timed : plan.Timed)
    (built : plan.groupTimeline table group = .ok items) {earlier later : MilestoneId}
    {start finish : Binary64}
    (depends : TransGen (table.dependencyGraph group).Joins earlier later)
    (ends : items.EndsAt earlier finish) (starts : items.StartsAt later start) :
    start.atLeast finish = true := by
  obtain ⟨item, found, ends⟩ := ends
  obtain ⟨milestone, records⟩ := exists_records timed built found
  obtain ⟨_, _, rfl⟩ := GroupTimeline.removeOverlaps_eq_ok_iff.mp built
  rcases records.whole with rfl | ⟨first, last, rfl⟩
  · cases ends
  · cases ends
    exact GroupTimeline.atLeast_of_clampAll (numeric_rawTimeline timed) found depends
      (GroupTimeline.startsAt_clampAll.mp starts)

end Plan

end ProcessFlow
