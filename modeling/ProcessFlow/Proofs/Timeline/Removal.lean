import ProcessFlow.Proofs.Graph.Acyclic
import ProcessFlow.Proofs.Timeline.Overlap

/-! # What the removal of overlaps returns

The removal refuses a graph with cycles, and then the least pair of milestones of which the first
depends on the second and starts after it. Of all others it keeps the milestones and their starts, and
ends each milestone of the graph at the first of its own end and the starts of those that depend on
it. That the maximal milestones are passed over shows in none of this.
-/

namespace ProcessFlow

namespace GroupTimeline

open Relation

/-- A milestone of the graph that has both times starts after one that depends on it. -/
structure Overlaps (raw : GroupTimeline) (graph : Graph MilestoneId) (earlier later : MilestoneId)
    (start laterStart : Binary64) : Prop where
  node : earlier ∈ graph
  times : ∃ finish, raw.get? earlier = some ⟨some start, some finish⟩
  depends : TransGen graph.Joins earlier later
  starts : raw.StartsAt later laterStart
  late : laterStart.less start = true

/-- The overlap with the least earlier milestone and, with this one, the least later milestone. -/
structure FirstOverlap (raw : GroupTimeline) (graph : Graph MilestoneId)
    (earlier later : MilestoneId) (start laterStart : Binary64) : Prop extends
    Overlaps raw graph earlier later start laterStart where
  first : ∀ {otherEarlier otherLater otherStart otherLaterStart},
    raw.Overlaps graph otherEarlier otherLater otherStart otherLaterStart →
      (⟨earlier, later⟩ : Edge MilestoneId) ≤ ⟨otherEarlier, otherLater⟩

/-- The same milestones start at the same times. Each milestone of the graph that has both times ends
at the first of the times that it does not last beyond, and all others end as they did. -/
structure Cleared (raw : GroupTimeline) (graph : Graph MilestoneId) (timeline : GroupTimeline) :
    Prop where
  keys : timeline.keys = raw.keys
  starts : ∀ milestone, (timeline.get? milestone).map TimelineItem.start =
    (raw.get? milestone).map TimelineItem.start
  ends : ∀ {milestone start finish}, milestone ∈ graph →
    raw.get? milestone = some ⟨some start, some finish⟩ →
      ∃ left, timeline.get? milestone = some ⟨some start, some left⟩ ∧
        Binary64.IsMinimum (raw.Limit graph milestone finish) left
  others : ∀ {milestone item}, raw.get? milestone = some item →
    (milestone ∉ graph ∨ item.start = none ∨ item.finish = none) →
      timeline.get? milestone = some item

/-- What the removal of overlaps may return. -/
inductive Removes (group : GroupId) (graph : Graph MilestoneId) (raw : GroupTimeline) :
    Except TimelineError GroupTimeline → Prop
  | cyclic (cycle : ∃ node, TransGen graph.Joins node node) :
    Removes group graph raw (.error (.cyclicMilestones group graph.cycles))
  | overlap {earlier later : MilestoneId} {start laterStart : Binary64}
    (acyclic : ∀ node, ¬TransGen graph.Joins node node)
    (first : raw.FirstOverlap graph earlier later start laterStart) :
    Removes group graph raw (.error (.overlap group earlier later start laterStart))
  | cleared {timeline : GroupTimeline} (acyclic : ∀ node, ¬TransGen graph.Joins node node)
    (apart : ∀ earlier later start laterStart,
      ¬raw.Overlaps graph earlier later start laterStart)
    (cleared : raw.Cleared graph timeline) : Removes group graph raw (.ok timeline)

/-! ## The first overlap -/

variable {raw : GroupTimeline} {group : GroupId} {graph : Graph MilestoneId}
  {earlier later : MilestoneId} {start laterStart : Binary64} {item : TimelineItem}
  {error : TimelineError}

theorem laterStarts_ascending (raw : GroupTimeline) (graph : Graph MilestoneId)
    (earlier : MilestoneId) :
    (raw.laterStarts graph earlier).Pairwise fun left right => left.1 < right.1 :=
  OrderedMap.pairwise_filterMap_keys (graph.descendants earlier).ascending _

/-- A milestone that another depends on over some edges is one of the graph. -/
theorem mem_of_depends (depends : TransGen graph.Joins earlier later) : earlier ∈ graph := by
  obtain ⟨_, joins, _⟩ := TransGen.head'_iff.mp depends
  exact joins.2.1

theorem overlaps_iff (found : raw.get? earlier = some item) :
    raw.Overlaps graph earlier later start laterStart ↔
      (∃ finish, item = ⟨some start, some finish⟩) ∧
      (later, laterStart) ∈ raw.laterStarts graph earlier ∧ laterStart.less start = true := by
  rw [mem_laterStarts]
  constructor
  · rintro ⟨_, ⟨finish, times⟩, depends, starts, late⟩
    rw [found] at times
    exact ⟨⟨finish, Option.some.inj times⟩, ⟨depends, starts⟩, late⟩
  · rintro ⟨⟨finish, rfl⟩, ⟨depends, starts⟩, late⟩
    exact ⟨mem_of_depends depends, ⟨finish, found⟩, depends, starts, late⟩

/-- The overlap that is found at a milestone is the one with the least later milestone. -/
theorem overlapOf?_eq_some (found : raw.get? earlier = some item)
    (overlap : raw.overlapOf? group graph earlier item = some error) :
    ∃ later start laterStart, error = .overlap group earlier later start laterStart ∧
      raw.Overlaps graph earlier later start laterStart ∧
      ∀ other otherStart otherLaterStart,
        raw.Overlaps graph earlier other otherStart otherLaterStart → later ≤ other := by
  match item with
  | ⟨some start, some finish⟩ =>
    rw [overlapOf?_set, Option.map_eq_some_iff] at overlap
    obtain ⟨⟨later, laterStart⟩, first, rfl⟩ := overlap
    rw [List.find?_eq_findSome?_guard, findSome?_eq_some_iff_of_pairwise
      (fun less => Std.not_gt_of_lt less) (laterStarts_ascending raw graph earlier)] at first
    obtain ⟨_, member, chosen, least⟩ := first
    obtain ⟨rfl, late⟩ := Option.guard_eq_some_iff.mp chosen
    refine ⟨later, start, laterStart, rfl, (overlaps_iff found).mpr ⟨⟨_, rfl⟩, member, late⟩, ?_⟩
    intro other otherStart otherLaterStart overlaps
    obtain ⟨⟨_, same⟩, otherMember, otherLate⟩ := (overlaps_iff found).mp overlaps
    cases same
    apply Std.not_lt.mp
    intro less
    have none := least _ otherMember less
    rw [Option.guard_eq_none_iff, otherLate] at none
    cases none
  | ⟨some _, none⟩ | ⟨none, _⟩ => cases overlap

/-- A milestone that overlaps another is found to do so. -/
theorem Overlaps.overlapOf?_ne_none (overlaps : raw.Overlaps graph earlier later start laterStart)
    (found : raw.get? earlier = some item) :
    raw.overlapOf? group graph earlier item ≠ none := by
  obtain ⟨⟨finish, rfl⟩, member, late⟩ := (overlaps_iff found).mp overlaps
  intro none
  rw [overlapOf?_eq_none.mp none _ member] at late
  cases late

/-- The first overlap along the timeline is the first of all. -/
theorem firstOverlap_of_findSome?
    (overlap : (raw.entries.findSome? fun entry => raw.overlapOf? group graph entry.1 entry.2) =
      some error) :
    ∃ earlier later start laterStart, error = .overlap group earlier later start laterStart ∧
      raw.FirstOverlap graph earlier later start laterStart := by
  rw [findSome?_eq_some_iff_of_pairwise (fun less => Std.not_gt_of_lt less) raw.ascending] at overlap
  obtain ⟨⟨earlier, item⟩, member, atEarlier, before⟩ := overlap
  have found := OrderedMap.get?_eq_some_iff.mpr member
  obtain ⟨later, start, laterStart, rfl, overlaps, least⟩ := overlapOf?_eq_some found atEarlier
  refine ⟨earlier, later, start, laterStart, rfl, overlaps, ?_⟩
  intro otherEarlier otherLater otherStart otherLaterStart other
  obtain ⟨otherFinish, otherFound⟩ := other.times
  rw [Edge.le_iff]
  rcases Std.lt_trichotomy earlier otherEarlier with less | rfl | greater
  · exact .inl less
  · exact .inr ⟨rfl, least _ _ _ other⟩
  · have none := before _ (OrderedMap.get?_eq_some_iff.mp otherFound) greater
    exact absurd none (other.overlapOf?_ne_none otherFound)

/-! ## What is left without overlaps -/

/-- The end of a milestone outside the graph stays as it is, and so does a time that is not set. -/
theorem clamp_of_other {milestone : MilestoneId}
    (other : milestone ∉ graph ∨ item.start = none ∨ item.finish = none) :
    raw.clamp graph milestone item = item := by
  match item with
  | ⟨some start, some finish⟩ =>
    rcases other with outside | unset | unset
    · simp [clamp, mayOverlap, outside]
    · cases unset
    · cases unset
  | ⟨some _, none⟩ | ⟨none, _⟩ => rfl

theorem cleared_clampAll (numeric : raw.Numeric) (graph : Graph MilestoneId) :
    raw.Cleared graph (raw.clampAll graph) where
  keys := OrderedMap.keys_mapValues ..
  starts milestone := by
    rw [clampAll, OrderedMap.get?_mapValues, Option.map_map]
    exact Option.map_congr fun item _ => clamp_start item
  ends _ found := by
    refine ⟨_, get?_clampAll.mpr ⟨_, found, clamp_set⟩, ?_⟩
    exact latestFinish_isMinimum numeric graph ⟨_, found, rfl⟩
  others found other := get?_clampAll.mpr ⟨_, found, clamp_of_other other⟩

/-! ## Maximal milestones -/

/-- The first overlap with a milestone, whether it is maximal or not. -/
def overlapThroughout? (raw : GroupTimeline) (group : GroupId) (graph : Graph MilestoneId)
    (earlier : MilestoneId) (item : TimelineItem) : Option TimelineError :=
  match item with
  | ⟨some start, some _⟩ =>
    if earlier ∈ graph then
      ((raw.laterStarts graph earlier).find? fun later => later.2.less start).map fun later =>
        .overlap group earlier later.1 start later.2
    else none
  | _ => none

/-- A milestone with its end no later than the starts of those that depend on it, whether it is
maximal or not. -/
def clampThroughout (raw : GroupTimeline) (graph : Graph MilestoneId) (earlier : MilestoneId)
    (item : TimelineItem) : TimelineItem :=
  match item with
  | ⟨some start, some finish⟩ =>
    if earlier ∈ graph then
      ⟨some start, some ((raw.laterStarts graph earlier).foldl
        (fun finish later => finish.least later.2) finish)⟩
    else item
  | _ => item

/-- The removal of overlaps that looks at the maximal milestones as at all others. -/
def removeOverlapsThroughout (group : GroupId) (graph : Graph MilestoneId) (raw : GroupTimeline) :
    Except TimelineError GroupTimeline :=
  match graph.cycles with
  | [] =>
    match raw.entries.findSome? fun entry =>
        raw.overlapThroughout? group graph entry.1 entry.2 with
    | some overlap => .error overlap
    | none => .ok (raw.mapValues (raw.clampThroughout graph))
  | cycles => .error (.cyclicMilestones group cycles)

/-- No milestone depends on one outside the graph. -/
theorem laterStarts_of_not_mem (outside : earlier ∉ graph) : raw.laterStarts graph earlier = [] := by
  apply laterStarts_eq_nil
  simp [mayOverlap, outside]

theorem overlapThroughout?_eq :
    raw.overlapThroughout? group graph earlier item = raw.overlapOf? group graph earlier item := by
  match item with
  | ⟨some start, some finish⟩ =>
    rw [overlapOf?_set, overlapThroughout?]
    split
    · rfl
    · rename_i outside
      rw [laterStarts_of_not_mem outside]
      rfl
  | ⟨some _, none⟩ | ⟨none, _⟩ => rfl

theorem clampThroughout_eq :
    raw.clampThroughout graph earlier item = raw.clamp graph earlier item := by
  match item with
  | ⟨some start, some finish⟩ =>
    rw [clamp_set, clampThroughout, latestFinish, List.foldl_map]
    split
    · rfl
    · rename_i outside
      rw [laterStarts_of_not_mem outside]
      rfl
  | ⟨some _, none⟩ | ⟨none, _⟩ => rfl

/-- Passing over the maximal milestones changes nothing. -/
theorem removeOverlaps_eq_throughout :
    raw.removeOverlaps group graph = raw.removeOverlapsThroughout group graph := by
  have clamps : raw.clampThroughout graph = raw.clamp graph := by
    funext earlier item
    exact clampThroughout_eq
  simp only [removeOverlapsThroughout, overlapThroughout?_eq, clamps]
  rfl

/-! ## The three outcomes -/

theorem removes_removeOverlaps (numeric : raw.Numeric) (group : GroupId)
    (graph : Graph MilestoneId) : Removes group graph raw (raw.removeOverlaps group graph) := by
  rw [removeOverlaps]
  split
  · rename_i acyclic
    rw [Graph.cycles_eq_nil_iff] at acyclic
    split
    · rename_i overlap
      obtain ⟨_, _, _, _, rfl, first⟩ := firstOverlap_of_findSome? overlap
      exact .overlap acyclic first
    · rename_i none
      rw [List.findSome?_eq_none_iff] at none
      refine .cleared acyclic ?_ (cleared_clampAll numeric graph)
      intro earlier later start laterStart overlaps
      obtain ⟨_, found⟩ := overlaps.times
      have apart := none _ (OrderedMap.get?_eq_some_iff.mp found)
      exact overlaps.overlapOf?_ne_none found apart
  · rename_i cyclic
    change graph.cycles ≠ [] at cyclic
    rw [ne_eq, Graph.cycles_eq_nil_iff, not_forall_not] at cyclic
    exact .cyclic cyclic

/-- The removal of overlaps refuses cycles, then the first overlap, and clears all else. It does the
same when it looks at the maximal milestones too. -/
theorem removeOverlaps_exact (group : GroupId) (graph : Graph MilestoneId) (raw : GroupTimeline) :
    (raw.Numeric → Removes group graph raw (raw.removeOverlaps group graph)) ∧
      raw.removeOverlaps group graph = raw.removeOverlapsThroughout group graph :=
  ⟨fun numeric => removes_removeOverlaps numeric group graph, removeOverlaps_eq_throughout⟩

/-- Three milestones in a row, of which the last has a successor outside the graph. -/
def row : Graph MilestoneId :=
  .ofLists [⟨"A"⟩, ⟨"B"⟩, ⟨"C"⟩] [⟨⟨"A"⟩, ⟨"B"⟩⟩, ⟨⟨"B"⟩, ⟨"C"⟩⟩, ⟨⟨"C"⟩, ⟨"D"⟩⟩]

/-- The times one and three. -/
def early : Binary64 := .ofBits 0x3FF0000000000000
def late : Binary64 := .ofBits 0x4008000000000000

/-- Times of the first and the last of them, and of the one outside the graph. The middle one has
none. -/
def rowTimes (firstFinish lastStart : Binary64) : GroupTimeline :=
  .ofList [(⟨"A"⟩, ⟨some early, some firstFinish⟩), (⟨"C"⟩, ⟨some lastStart, some late⟩),
    (⟨"D"⟩, ⟨some (.ofBits 0), some late⟩)]

theorem numeric_rowTimes : (rowTimes late (.ofBits 0x4000000000000000)).Numeric ∧
    (rowTimes late (.ofBits 0)).Numeric := by
  rw [numeric_iff, numeric_iff]
  decide +kernel

theorem removeOverlaps_row : (rowTimes late (.ofBits 0x4000000000000000)).removeOverlaps ⟨"G"⟩ row =
    .ok (rowTimes (.ofBits 0x4000000000000000) (.ofBits 0x4000000000000000)) := by cbv

theorem removeOverlaps_row_overlap : (rowTimes late (.ofBits 0)).removeOverlaps ⟨"G"⟩ row =
    .error (.overlap ⟨"G"⟩ ⟨"A"⟩ ⟨"C"⟩ early (.ofBits 0)) := by cbv

/-- Across the middle milestone the first one is clamped or overlaps. That the one outside the graph
starts before the last one is no overlap. -/
theorem removeOverlaps_exact_row :
    Removes ⟨"G"⟩ row (rowTimes late (.ofBits 0x4000000000000000))
      (.ok (rowTimes (.ofBits 0x4000000000000000) (.ofBits 0x4000000000000000))) ∧
    Removes ⟨"G"⟩ row (rowTimes late (.ofBits 0))
      (.error (.overlap ⟨"G"⟩ ⟨"A"⟩ ⟨"C"⟩ early (.ofBits 0))) := by
  obtain ⟨numeric, numericOverlap⟩ := numeric_rowTimes
  rw [← removeOverlaps_row, ← removeOverlaps_row_overlap]
  exact ⟨(removeOverlaps_exact _ _ _).1 numeric, (removeOverlaps_exact _ _ _).1 numericOverlap⟩

end GroupTimeline

end ProcessFlow
