import ProcessFlow.CommandLine.Print
import ProcessFlow.Proofs.Graph.LeastOrder
import ProcessFlow.Proofs.Timeline.Locality

/-! # The order in which a group is printed

A listing of a group goes through the order of the dependencies first, and then through what is left
of the timeline. So it has every milestone of the timeline once, whatever the dependencies are. Where
the timeline comes from the table, its milestones are the nodes of the dependency graph, and the graph
has no cycles, since the removal of overlaps refuses them: the listing is the topological order, and
nothing is left.
-/

namespace ProcessFlow

open Relation

namespace MilestoneTable

variable {table : MilestoneTable} {group : GroupId} {timeline : GroupTimeline} {id : MilestoneId}

/-! ## Placed and left over -/

/-- The milestones of a timeline with a place in the order of the dependencies, in this order. -/
def placed (table : MilestoneTable) (group : GroupId) (timeline : GroupTimeline) :
    List MilestoneId :=
  ((table.dependencyGraph group).topologicalSort.getD []).filter (· ∈ timeline)

/-- The milestones of a timeline without such a place. -/
def leftOver (table : MilestoneTable) (group : GroupId) (timeline : GroupTimeline) :
    List MilestoneId :=
  timeline.keys.filter fun id => !(table.placed group timeline).contains id

theorem inOrder_eq : table.inOrder group timeline =
    table.placed group timeline ++ table.leftOver group timeline := by
  simp [inOrder, placed, leftOver]

theorem mem_timeline_of_mem_placed (member : id ∈ table.placed group timeline) : id ∈ timeline :=
  of_decide_eq_true (List.mem_filter.mp member).2

theorem mem_leftOver : id ∈ table.leftOver group timeline ↔
    id ∈ timeline ∧ id ∉ table.placed group timeline := by
  rw [leftOver, List.mem_filter, OrderedMap.mem_keys, Bool.not_eq_true', List.contains_eq_mem,
    decide_eq_false_iff_not]

theorem nodup_placed (table : MilestoneTable) (group : GroupId) (timeline : GroupTimeline) :
    (table.placed group timeline).Nodup := by
  apply List.Nodup.filter
  cases sorted : (table.dependencyGraph group).topologicalSort with
  | none => exact .nil
  | some order => exact (Graph.isTopologicalOrder_of_topologicalSort sorted).distinct

/-- Every milestone of a timeline is listed, and no other. -/
theorem mem_inOrder : id ∈ table.inOrder group timeline ↔ id ∈ timeline := by
  rw [inOrder_eq, List.mem_append, mem_leftOver]
  constructor
  · rintro (isPlaced | ⟨member, _⟩)
    · exact mem_timeline_of_mem_placed isPlaced
    · exact member
  · intro member
    by_cases isPlaced : id ∈ table.placed group timeline
    · exact .inl isPlaced
    · exact .inr ⟨member, isPlaced⟩

/-- No milestone is listed twice. -/
theorem nodup_inOrder (table : MilestoneTable) (group : GroupId) (timeline : GroupTimeline) :
    (table.inOrder group timeline).Nodup := by
  have keys : timeline.keys.Nodup := (List.pairwise_map.mpr timeline.ascending).imp Std.ne_of_lt
  rw [inOrder_eq, List.nodup_append]
  refine ⟨nodup_placed table group timeline, keys.filter _, ?_⟩
  rintro first isPlaced second isLeft rfl
  exact (mem_leftOver.mp isLeft).2 isPlaced

/-- When the dependencies have an order and their graph has the milestones of the timeline, all of them
are placed. -/
theorem placed_of_topologicalSort {order : List MilestoneId}
    (sorted : (table.dependencyGraph group).topologicalSort = some order)
    (members : ∀ id, id ∈ timeline ↔ id ∈ table.dependencyGraph group) :
    table.placed group timeline = order ∧ table.leftOver group timeline = [] := by
  have isOrder := Graph.isTopologicalOrder_of_topologicalSort sorted
  have all : table.placed group timeline = order := by
    rw [placed, sorted, Option.getD_some, List.filter_eq_self]
    intro id member
    exact decide_eq_true ((members id).mpr ((isOrder.members id).mp member))
  refine ⟨all, List.eq_nil_iff_forall_not_mem.mpr fun id isLeft => ?_⟩
  obtain ⟨member, notPlaced⟩ := mem_leftOver.mp isLeft
  rw [all] at notPlaced
  exact notPlaced ((isOrder.members id).mpr ((members id).mp member))

end MilestoneTable

/-! ## Printed rows -/

/-- The rows that are printed for the milestones of a group. -/
def GroupTimeline.printedRows (table : MilestoneTable) (group : GroupId) (timeline : GroupTimeline) :
    List String :=
  (table.inOrder group timeline).filterMap fun milestone =>
    (timeline.get? milestone).map (TimelineItem.printedRow milestone)

theorem GroupTimeline.printed_eq (table : MilestoneTable) (group : GroupId)
    (timeline : GroupTimeline) : GroupTimeline.printed table group timeline =
      ("Group " ++ group.text ++ " (" ++ toString timeline.size ++ " milestones):") ::
        ProcessFlow.printedRow ["MILESTONE", "START", "END"] ::
        GroupTimeline.printedRows table group timeline ++ [""] := rfl

/-- Each listed milestone has its own row, in its turn. -/
theorem GroupTimeline.forall₂_printedRows (table : MilestoneTable) (group : GroupId)
    (timeline : GroupTimeline) :
    List.Forall₂
      (fun milestone row => ∃ item, timeline.get? milestone = some item ∧
        TimelineItem.printedRow milestone item = row)
      (table.inOrder group timeline) (GroupTimeline.printedRows table group timeline) := by
  have found : ∀ milestone ∈ table.inOrder group timeline,
      ∃ item, timeline.get? milestone = some item := by
    intro milestone listed
    obtain ⟨item, entry⟩ := OrderedMap.mem_iff_exists.mp (MilestoneTable.mem_inOrder.mp listed)
    exact ⟨item, OrderedMap.get?_eq_some_iff.mpr entry⟩
  rw [printedRows]
  generalize table.inOrder group timeline = order at found ⊢
  induction order with
  | nil => exact .nil
  | cons milestone rest ih =>
    obtain ⟨⟨item, here⟩, later⟩ := List.forall_mem_cons.mp found
    rw [List.filterMap_cons, here, Option.map_some]
    exact .cons ⟨item, here, rfl⟩ (ih later)

/-! ## The listing of a timeline -/

namespace MilestoneTable

variable {plan : Plan} {table : MilestoneTable} {group : GroupId} {timeline : GroupTimeline}

/-- The milestones of a group's timeline are the nodes of its dependency graph. -/
theorem mem_groupTimeline (built : plan.groupTimeline table group = .ok timeline)
    (id : MilestoneId) : id ∈ timeline ↔ id ∈ table.dependencyGraph group := by
  obtain ⟨_, _, rfl⟩ := GroupTimeline.removeOverlaps_eq_ok_iff.mp built
  rw [GroupTimeline.mem_clampAll, Plan.mem_rawTimeline, Graph.mem_iff, mem_nodes_dependencyGraph]
  rfl

/-- A group with a timeline has no cycle of dependencies. -/
theorem acyclic_of_groupTimeline (built : plan.groupTimeline table group = .ok timeline) :
    ∀ node, ¬TransGen (table.dependencyGraph group).Joins node node := by
  obtain ⟨acyclic, _, _⟩ := GroupTimeline.removeOverlaps_eq_ok_iff.mp built
  exact Graph.cycles_eq_nil_iff.mp acyclic

/-- The timeline of a group is listed in the topological order of its dependencies, from which no
milestone is left over. Each of its milestones is listed once, and before all that depend on it. The
rows that are printed are those of the listed milestones. -/
theorem inOrder_exact (built : plan.groupTimeline table group = .ok timeline) :
    (table.dependencyGraph group).topologicalSort = some (table.inOrder group timeline) ∧
    table.leftOver group timeline = [] ∧
    (table.inOrder group timeline).Nodup ∧
    (∀ id, id ∈ table.inOrder group timeline ↔ id ∈ timeline) ∧
    (∀ earlier later, TransGen (table.dependencyGraph group).Joins earlier later →
      earlier ∈ table.inOrder group timeline ∧ later ∈ table.inOrder group timeline ∧
        (table.inOrder group timeline).idxOf earlier < (table.inOrder group timeline).idxOf later) ∧
    ∃ rows, GroupTimeline.printed table group timeline =
        ("Group " ++ group.text ++ " (" ++ toString timeline.size ++ " milestones):") ::
          printedRow ["MILESTONE", "START", "END"] :: rows ++ [""] ∧
      List.Forall₂
        (fun milestone row => ∃ item, timeline.get? milestone = some item ∧
          TimelineItem.printedRow milestone item = row)
        (table.inOrder group timeline) rows := by
  obtain ⟨order, sorted⟩ := Graph.exists_topologicalSort (acyclic_of_groupTimeline built)
  obtain ⟨all, nothing⟩ := placed_of_topologicalSort sorted (mem_groupTimeline built)
  have same : table.inOrder group timeline = order := by
    rw [inOrder_eq, all, nothing, List.append_nil]
  rw [← same] at sorted
  refine ⟨sorted, nothing, nodup_inOrder table group timeline, fun id => mem_inOrder, ?_,
    _, GroupTimeline.printed_eq table group timeline,
    GroupTimeline.forall₂_printedRows table group timeline⟩
  intro earlier later depends
  have isOrder := Graph.isTopologicalOrder_of_topologicalSort sorted
  obtain ⟨_, first, _⟩ := TransGen.head'_iff.mp depends
  obtain ⟨_, _, last⟩ := TransGen.tail'_iff.mp depends
  exact ⟨(isOrder.members earlier).mpr first.2.1, (isOrder.members later).mpr last.2.2,
    Graph.idxOf_lt_of_transGen sorted depends⟩

/-- Two milestones of a group, of which the first by name depends on the second, and has a successor
that no group tracks. -/
def backwards : MilestoneTable :=
  (empty.insert ⟨⟨"M1"⟩, .ofList [⟨"P2"⟩], .ofList [⟨"M9"⟩], .ofList [⟨"G"⟩]⟩).insert
    ⟨⟨"M2"⟩, .ofList [⟨"P1"⟩], .ofList [⟨"M1"⟩], .ofList [⟨"G"⟩]⟩

/-- The first milestone starts where the second ends. -/
def backwardsTimeline : GroupTimeline :=
  .ofList [(⟨"M1"⟩, ⟨some Plan.one, some Plan.two⟩), (⟨"M2"⟩, ⟨some (.ofBits 0), some Plan.one⟩)]

/-- The second milestone is printed first. -/
theorem inOrder_exact_backwards :
    Plan.rework.groupTimeline backwards ⟨"G"⟩ = .ok backwardsTimeline ∧
    (backwards.dependencyGraph ⟨"G"⟩).topologicalSort = some [⟨"M2"⟩, ⟨"M1"⟩] ∧
    backwards.inOrder ⟨"G"⟩ backwardsTimeline = [⟨"M2"⟩, ⟨"M1"⟩] ∧
    backwards.leftOver ⟨"G"⟩ backwardsTimeline = [] ∧
    TransGen (backwards.dependencyGraph ⟨"G"⟩).Joins ⟨"M2"⟩ ⟨"M1"⟩ := by
  have built : Plan.rework.groupTimeline backwards ⟨"G"⟩ = .ok backwardsTimeline := by cbv
  have listed : backwards.inOrder ⟨"G"⟩ backwardsTimeline = [⟨"M2"⟩, ⟨"M1"⟩] := by cbv
  obtain ⟨sorted, nothing, _⟩ := inOrder_exact built
  rw [listed] at sorted
  exact ⟨built, sorted, listed, nothing, .single (by decide)⟩

end MilestoneTable

end ProcessFlow
