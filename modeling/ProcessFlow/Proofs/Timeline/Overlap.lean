import ProcessFlow.Proofs.Graph.Reach
import ProcessFlow.Proofs.Number.Order
import ProcessFlow.Timeline

/-! # The removal of overlaps

Only a milestone that others depend on is looked at, and this is where the starts of those others
are found. So the removal looks at every pair of set milestones of which one depends on the other,
over however many edges, and the graph matters to it only by its cycles and by which milestones depend
on which. A removal that succeeds has seen none of them out of order.
-/

namespace ProcessFlow

namespace GroupTimeline

open Relation

variable {raw timeline : GroupTimeline} {group : GroupId} {graph : Graph MilestoneId}
  {earlier later : MilestoneId} {start finish : Binary64}

def StartsAt (raw : GroupTimeline) (milestone : MilestoneId) (start : Binary64) : Prop :=
  ∃ item, raw.get? milestone = some item ∧ item.start = some start

def EndsAt (raw : GroupTimeline) (milestone : MilestoneId) (finish : Binary64) : Prop :=
  ∃ item, raw.get? milestone = some item ∧ item.finish = some finish

theorem mem_laterStarts : (later, start) ∈ raw.laterStarts graph earlier ↔
    TransGen graph.Joins earlier later ∧ raw.StartsAt later start := by
  simp only [laterStarts, StartsAt, List.mem_filterMap, Option.map_eq_some_iff,
    Option.bind_eq_some_iff, Prod.mk.injEq, OrderedSet.mem_toList, Graph.mem_descendants]
  constructor
  · rintro ⟨_, depends, _, ⟨item, found, starts⟩, rfl, rfl⟩
    exact ⟨depends, item, found, starts⟩
  · rintro ⟨depends, item, found, starts⟩
    exact ⟨later, depends, start, ⟨item, found, starts⟩, rfl, rfl⟩

/-- An edge leaves the milestone and ends within the graph. -/
theorem mayOverlap_of_depends (depends : TransGen graph.Joins earlier later) :
    mayOverlap graph earlier = true := by
  obtain ⟨next, edge, _⟩ := TransGen.head'_iff.mp depends
  have leaves : graph.edges.toList.any (·.source = earlier) = true :=
    List.any_eq_true.mpr ⟨⟨earlier, next⟩, edge.1, decide_eq_true rfl⟩
  have notMaximal : earlier ∉ graph.maximals := by
    rw [Graph.maximals, OrderedSet.mem_filter, leaves]
    rintro ⟨_, last⟩
    cases last
  rw [mayOverlap, Bool.and_eq_true, decide_eq_true_eq, decide_eq_true_eq]
  exact ⟨edge.2.1, notMaximal⟩

theorem laterStarts_eq_nil (safe : mayOverlap graph earlier = false) :
    raw.laterStarts graph earlier = [] := by
  rw [List.eq_nil_iff_forall_not_mem]
  rintro ⟨later, start⟩ member
  rw [mayOverlap_of_depends (mem_laterStarts.mp member).1] at safe
  cases safe

/-- The end that is left to a milestone. -/
def latestFinish (raw : GroupTimeline) (graph : Graph MilestoneId) (earlier : MilestoneId)
    (finish : Binary64) : Binary64 :=
  ((raw.laterStarts graph earlier).map Prod.snd).foldl Binary64.least finish

theorem clamp_set : raw.clamp graph earlier ⟨some start, some finish⟩ =
    ⟨some start, some (raw.latestFinish graph earlier finish)⟩ := by
  simp only [clamp, latestFinish, List.foldl_map]
  split
  · rfl
  · rename_i safe
    rw [laterStarts_eq_nil (Bool.not_eq_true _ ▸ safe), List.foldl_nil]

theorem clamp_start (item : TimelineItem) :
    (raw.clamp graph earlier item).start = item.start := by
  match item with
  | ⟨some start, some finish⟩ => rw [clamp_set]
  | ⟨some start, none⟩ | ⟨none, _⟩ => rfl

/-- Every milestone with the end that is left to it. -/
def clampAll (raw : GroupTimeline) (graph : Graph MilestoneId) : GroupTimeline :=
  raw.mapValues (raw.clamp graph)

theorem mem_clampAll {milestone : MilestoneId} : milestone ∈ raw.clampAll graph ↔ milestone ∈ raw := by
  rw [← OrderedMap.mem_keys, clampAll, OrderedMap.keys_mapValues, OrderedMap.mem_keys]

theorem get?_clampAll {milestone : MilestoneId} {item : TimelineItem} :
    (raw.clampAll graph).get? milestone = some item ↔
      ∃ old, raw.get? milestone = some old ∧ raw.clamp graph milestone old = item := by
  rw [clampAll, OrderedMap.get?_mapValues, Option.map_eq_some_iff]

/-- Starts stay as they are. -/
theorem startsAt_clampAll {milestone : MilestoneId} :
    (raw.clampAll graph).StartsAt milestone start ↔ raw.StartsAt milestone start := by
  constructor
  · rintro ⟨item, found, starts⟩
    obtain ⟨old, foundOld, rfl⟩ := get?_clampAll.mp found
    exact ⟨old, foundOld, (clamp_start old).symm.trans starts⟩
  · rintro ⟨old, found, starts⟩
    exact ⟨_, get?_clampAll.mpr ⟨old, found, rfl⟩, (clamp_start old).trans starts⟩

/-- Of a milestone with both times, the overlap is with the first that depends on it and starts before
it. -/
theorem overlapOf?_set : raw.overlapOf? group graph earlier ⟨some start, some finish⟩ =
    ((raw.laterStarts graph earlier).find? fun later => later.2.less start).map fun later =>
      .overlap group earlier later.1 start later.2 := by
  simp only [overlapOf?]
  split
  · rfl
  · rename_i safe
    rw [laterStarts_eq_nil (Bool.not_eq_true _ ▸ safe)]
    rfl

/-- A milestone overlaps no other exactly when none that depends on it starts before it. -/
theorem overlapOf?_eq_none : raw.overlapOf? group graph earlier ⟨some start, some finish⟩ = none ↔
    ∀ later ∈ raw.laterStarts graph earlier, later.2.less start = false := by
  simp only [overlapOf?_set, Option.map_eq_none_iff, List.find?_eq_none, Bool.not_eq_true]

/-- The removal succeeds on a timeline without overlaps, over a graph without cycles. -/
theorem removeOverlaps_eq_ok_iff : raw.removeOverlaps group graph = .ok timeline ↔
    graph.cycles = [] ∧
    (∀ milestone item, raw.get? milestone = some item →
      raw.overlapOf? group graph milestone item = none) ∧
    raw.clampAll graph = timeline := by
  rw [removeOverlaps]
  split
  · rename_i acyclic
    have overlapping : (∀ milestone item, raw.get? milestone = some item →
        raw.overlapOf? group graph milestone item = none) ↔
        (raw.entries.findSome? fun entry => raw.overlapOf? group graph entry.1 entry.2) = none := by
      simp only [List.findSome?_eq_none_iff, Prod.forall, OrderedMap.get?_eq_some_iff]
    rw [overlapping]
    split
    · rename_i found
      simp [found]
    · rename_i found
      simp [found, acyclic, clampAll]
  · rename_i cyclic
    exact ⟨nofun, fun acyclic => absurd acyclic.1 cyclic⟩

/-! ## Graphs that lead to the same milestones -/

section Congruence

variable {left right : Graph MilestoneId}

theorem laterStarts_congr (reach : TransGen left.Joins = TransGen right.Joins)
    (earlier : MilestoneId) : raw.laterStarts left earlier = raw.laterStarts right earlier := by
  rw [laterStarts, laterStarts, Graph.descendants_congr reach]

/-- Which milestones may overlap is read off all edges, but those that only dangling edges leave have
none to overlap with. -/
theorem overlapOf?_congr (reach : TransGen left.Joins = TransGen right.Joins) (group : GroupId)
    (earlier : MilestoneId) (item : TimelineItem) :
    raw.overlapOf? group left earlier item = raw.overlapOf? group right earlier item := by
  match item with
  | ⟨some start, some finish⟩ => rw [overlapOf?_set, overlapOf?_set, laterStarts_congr reach]
  | ⟨some _, none⟩ | ⟨none, _⟩ => rfl

theorem clamp_congr (reach : TransGen left.Joins = TransGen right.Joins) (earlier : MilestoneId)
    (item : TimelineItem) : raw.clamp left earlier item = raw.clamp right earlier item := by
  match item with
  | ⟨some start, some finish⟩ =>
    rw [clamp_set, clamp_set, latestFinish, latestFinish, laterStarts_congr reach]
  | ⟨some _, none⟩ | ⟨none, _⟩ => rfl

/-- Besides the cycles, the removal of overlaps looks only at which milestones depend on which. -/
theorem removeOverlaps_congr (cycles : left.cycles = right.cycles)
    (reach : TransGen left.Joins = TransGen right.Joins) (group : GroupId) :
    raw.removeOverlaps group left = raw.removeOverlaps group right := by
  have overlaps : raw.overlapOf? group left = raw.overlapOf? group right :=
    funext fun earlier => funext (overlapOf?_congr reach group earlier)
  have clamps : raw.clamp left = raw.clamp right :=
    funext fun earlier => funext (clamp_congr reach earlier)
  rw [removeOverlaps, removeOverlaps, cycles, overlaps, clamps]

end Congruence

/-! ## Times that are numbers -/

/-- The times of the items are numbers. -/
def Numeric (raw : GroupTimeline) : Prop :=
  ∀ milestone time, raw.StartsAt milestone time ∨ raw.EndsAt milestone time → time.isNaN = false

/-- The times of the items, entry by entry. -/
theorem numeric_iff : raw.Numeric ↔
    ∀ entry ∈ raw.entries, ∀ time ∈ entry.2.start.toList ++ entry.2.finish.toList,
      time.isNaN = false := by
  simp only [Numeric, StartsAt, EndsAt, OrderedMap.get?_eq_some_iff, List.mem_append,
    Option.mem_toList, Prod.forall]
  constructor
  · rintro numeric milestone item member time (starts | ends)
    · exact numeric milestone time (.inl ⟨item, member, starts⟩)
    · exact numeric milestone time (.inr ⟨item, member, ends⟩)
  · rintro numbers milestone time (⟨item, member, starts⟩ | ⟨item, member, ends⟩)
    · exact numbers milestone item member time (.inl starts)
    · exact numbers milestone item member time (.inr ends)

/-- A time that a milestone does not last beyond: its own end, or the start of a milestone that
depends on it. -/
def Limit (raw : GroupTimeline) (graph : Graph MilestoneId) (earlier : MilestoneId)
    (finish time : Binary64) : Prop :=
  time = finish ∨ ∃ later, TransGen graph.Joins earlier later ∧ raw.StartsAt later time

theorem limit_iff {time : Binary64} : raw.Limit graph earlier finish time ↔
    time ∈ finish :: (raw.laterStarts graph earlier).map Prod.snd := by
  simp only [Limit, List.mem_cons, List.mem_map, Prod.exists, exists_eq_right, mem_laterStarts]

theorem Numeric.of_limit {time : Binary64} (numeric : raw.Numeric) (ends : raw.EndsAt earlier finish)
    (limit : raw.Limit graph earlier finish time) : time.isNaN = false := by
  rcases limit with rfl | ⟨later, _, starts⟩
  · exact numeric earlier time (.inr ends)
  · exact numeric later time (.inl starts)

/-- The end that is left to a milestone is the first of the times that it does not last beyond. -/
theorem latestFinish_isMinimum (numeric : raw.Numeric) (graph : Graph MilestoneId)
    (ends : raw.EndsAt earlier finish) :
    Binary64.IsMinimum (raw.Limit graph earlier finish)
      (raw.latestFinish graph earlier finish) := by
  obtain ⟨member, lowest⟩ := Binary64.foldl_least_isMinimum
    fun time member => numeric.of_limit ends (limit_iff.mpr member)
  exact ⟨limit_iff.mpr member, fun time limit => lowest time (limit_iff.mp limit)⟩

/-- A milestone that has both times ends before any that depends on it starts. -/
theorem atLeast_of_clampAll {first : Binary64} (numeric : raw.Numeric)
    (set : (raw.clampAll graph).get? earlier = some ⟨some first, some finish⟩)
    (depends : TransGen graph.Joins earlier later) (starts : raw.StartsAt later start) :
    start.atLeast finish = true := by
  obtain ⟨item, found, clamped⟩ := get?_clampAll.mp set
  match item with
  | ⟨some _, some last⟩ =>
    rw [clamp_set] at clamped
    cases clamped
    exact (latestFinish_isMinimum numeric graph ⟨_, found, rfl⟩).lowest start
      (.inr ⟨later, depends, starts⟩)
  | ⟨some _, none⟩ | ⟨none, _⟩ => cases clamped

end GroupTimeline

end ProcessFlow
