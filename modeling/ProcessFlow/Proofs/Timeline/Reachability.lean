import ProcessFlow.Proofs.Timeline.Removal

/-! # The removal of overlaps over other edges

The removal looks at the edges of a graph without cycles only to see which milestones depend on which,
over however many edges. So an edge between milestones that other edges join already makes no
difference, not even to the error. Where fewer milestones depend on one another the removal succeeds
whenever it does where more do, and it leaves every milestone at least as long. A removal done again
changes nothing, because starts stay as they are and each end is already the least that it could be.
-/

namespace ProcessFlow

namespace GroupTimeline

open Relation

variable {raw timeline shorter : GroupTimeline} {group : GroupId}
  {graph fewer more left right : Graph MilestoneId} {earlier : MilestoneId} {item : TimelineItem}

/-! ## A second removal -/

theorem laterStarts_clampAll (earlier : MilestoneId) :
    (raw.clampAll graph).laterStarts graph earlier = raw.laterStarts graph earlier := by
  have starts (later : MilestoneId) : ((raw.clampAll graph).get? later).bind TimelineItem.start =
      (raw.get? later).bind TimelineItem.start := by
    rw [clampAll, OrderedMap.get?_mapValues, Option.bind_map]
    exact Option.bind_congr fun item _ => clamp_start item
  simp only [laterStarts, starts]

/-- With its end as it is left, a milestone overlaps the same as before. -/
theorem overlapOf?_clampAll : (raw.clampAll graph).overlapOf? group graph earlier
      (raw.clamp graph earlier item) = raw.overlapOf? group graph earlier item := by
  match item with
  | ⟨some start, some finish⟩ => rw [clamp_set, overlapOf?_set, overlapOf?_set, laterStarts_clampAll]
  | ⟨some _, none⟩ | ⟨none, _⟩ => rfl

theorem clamp_clampAll (numeric : raw.Numeric) (found : raw.get? earlier = some item) :
    (raw.clampAll graph).clamp graph earlier (raw.clamp graph earlier item) =
      raw.clamp graph earlier item := by
  match item with
  | ⟨some start, some finish⟩ =>
    rw [clamp_set, clamp_set, latestFinish, laterStarts_clampAll, latestFinish,
      Binary64.foldl_least_idem fun time member =>
        numeric.of_limit ⟨_, found, rfl⟩ (limit_iff.mpr member)]
  | ⟨some _, none⟩ | ⟨none, _⟩ => rfl

theorem clampAll_clampAll (numeric : raw.Numeric) (graph : Graph MilestoneId) :
    (raw.clampAll graph).clampAll graph = raw.clampAll graph := by
  apply OrderedMap.ext_get?
  intro milestone
  ext item
  rw [get?_clampAll, get?_clampAll]
  constructor
  · rintro ⟨clamped, found, rfl⟩
    obtain ⟨old, foundOld, rfl⟩ := get?_clampAll.mp found
    exact ⟨old, foundOld, (clamp_clampAll numeric foundOld).symm⟩
  · rintro ⟨old, found, rfl⟩
    exact ⟨_, get?_clampAll.mpr ⟨old, found, rfl⟩, clamp_clampAll numeric found⟩

/-- What a removal returns, it returns again. -/
theorem removeOverlaps_again (numeric : raw.Numeric)
    (removed : raw.removeOverlaps group graph = .ok timeline) :
    timeline.removeOverlaps group graph = .ok timeline := by
  obtain ⟨acyclic, apart, rfl⟩ := removeOverlaps_eq_ok_iff.mp removed
  refine removeOverlaps_eq_ok_iff.mpr ⟨acyclic, ?_, clampAll_clampAll numeric graph⟩
  intro milestone item found
  obtain ⟨old, foundOld, rfl⟩ := get?_clampAll.mp found
  rw [overlapOf?_clampAll]
  exact apart milestone old foundOld

/-! ## Fewer dependencies -/

/-- The same milestones start at the same times, and the same ones have ended, none of them earlier. -/
structure Outlasts (longer shorter : GroupTimeline) : Prop where
  keys : longer.keys = shorter.keys
  starts : ∀ milestone, (longer.get? milestone).map TimelineItem.start =
    (shorter.get? milestone).map TimelineItem.start
  ends : ∀ milestone, Option.Rel (fun longer shorter => longer.atLeast shorter = true)
    ((longer.get? milestone).bind TimelineItem.finish)
    ((shorter.get? milestone).bind TimelineItem.finish)

theorem laterStarts_subset
    (reach : ∀ later, TransGen fewer.Joins earlier later → TransGen more.Joins earlier later) :
    raw.laterStarts fewer earlier ⊆ raw.laterStarts more earlier := by
  rintro ⟨later, start⟩ member
  obtain ⟨depends, starts⟩ := mem_laterStarts.mp member
  exact mem_laterStarts.mpr ⟨reach later depends, starts⟩

theorem overlapOf?_of_more
    (reach : ∀ later, TransGen fewer.Joins earlier later → TransGen more.Joins earlier later)
    (apart : raw.overlapOf? group more earlier item = none) :
    raw.overlapOf? group fewer earlier item = none := by
  match item with
  | ⟨some start, some finish⟩ =>
    rw [overlapOf?_eq_none] at apart ⊢
    exact fun later member => apart later (laterStarts_subset reach member)
  | ⟨some _, none⟩ | ⟨none, _⟩ => rfl

/-- With fewer milestones depending on it, a milestone is left an end that is no earlier. -/
theorem finish_clamp_of_more (numeric : raw.Numeric)
    (reach : ∀ later, TransGen fewer.Joins earlier later → TransGen more.Joins earlier later)
    (found : raw.get? earlier = some item) :
    Option.Rel (fun longer shorter => longer.atLeast shorter = true)
      (raw.clamp fewer earlier item).finish (raw.clamp more earlier item).finish := by
  match item with
  | ⟨some start, some finish⟩ =>
    have ends : raw.EndsAt earlier finish := ⟨_, found, rfl⟩
    have limit := (latestFinish_isMinimum numeric fewer ends).member
    rw [clamp_set, clamp_set]
    refine .some ((latestFinish_isMinimum numeric more ends).lowest _ (limit.imp_right ?_))
    rintro ⟨later, depends, starts⟩
    exact ⟨later, reach later depends, starts⟩
  | ⟨none, some finish⟩ =>
    exact .some (Binary64.atLeast_refl (numeric earlier finish (.inr ⟨_, found, rfl⟩)))
  | ⟨some _, none⟩ | ⟨none, none⟩ => exact .none

theorem outlasts_clampAll (numeric : raw.Numeric) (reach : ∀ earlier later,
      TransGen fewer.Joins earlier later → TransGen more.Joins earlier later) :
    (raw.clampAll fewer).Outlasts (raw.clampAll more) where
  keys := by rw [clampAll, clampAll, OrderedMap.keys_mapValues, OrderedMap.keys_mapValues]
  starts milestone := by
    simp only [clampAll, OrderedMap.get?_mapValues, Option.map_map, Function.comp_def, clamp_start]
  ends milestone := by
    rw [clampAll, clampAll, OrderedMap.get?_mapValues, OrderedMap.get?_mapValues]
    cases found : raw.get? milestone with
    | none => exact .none
    | some item => exact finish_clamp_of_more numeric (reach milestone) found

/-- Where more milestones depend on one another the removal succeeds less often and ends milestones
earlier. -/
theorem removeOverlaps_of_more (numeric : raw.Numeric) (reach : ∀ earlier later,
      TransGen fewer.Joins earlier later → TransGen more.Joins earlier later)
    (removed : raw.removeOverlaps group more = .ok shorter) :
    ∃ longer, raw.removeOverlaps group fewer = .ok longer ∧ longer.Outlasts shorter := by
  obtain ⟨acyclic, apart, rfl⟩ := removeOverlaps_eq_ok_iff.mp removed
  rw [Graph.cycles_eq_nil_iff] at acyclic
  refine ⟨_, removeOverlaps_eq_ok_iff.mpr ⟨?_, ?_, rfl⟩, outlasts_clampAll numeric reach⟩
  · rw [Graph.cycles_eq_nil_iff]
    exact fun node cycle => acyclic node (reach node node cycle)
  · intro milestone item found
    exact overlapOf?_of_more (reach milestone) (apart milestone item found)

/-! ## The same dependencies -/

/-- Graphs without cycles in which the same milestones depend on one another have the same removal. -/
theorem removeOverlaps_of_same (acyclic : ∀ node, ¬TransGen left.Joins node node)
    (reach : TransGen left.Joins = TransGen right.Joins) :
    raw.removeOverlaps group left = raw.removeOverlaps group right := by
  refine removeOverlaps_congr ?_ reach group
  rw [Graph.cycles_eq_nil_iff.mpr acyclic, Graph.cycles_eq_nil_iff.mpr (reach ▸ acyclic)]

/-- The removal of overlaps returns again what it has returned. On a timeline of numbers, wherever a
graph without cycles lets more milestones depend on one another, it succeeds only if it does over the
graph that lets fewer, which leaves the same starts and no end earlier. Over graphs without cycles in
which the same milestones depend on one another, it returns the same timeline or the same error, so
that edges between milestones that other edges join make no difference. -/
theorem removeOverlaps_reachability (group : GroupId) (raw : GroupTimeline) (numeric : raw.Numeric) :
    (∀ graph timeline, raw.removeOverlaps group graph = .ok timeline →
      timeline.removeOverlaps group graph = .ok timeline) ∧
    (∀ fewer more shorter, (∀ earlier later,
        TransGen fewer.Joins earlier later → TransGen more.Joins earlier later) →
      raw.removeOverlaps group more = .ok shorter →
        ∃ longer, raw.removeOverlaps group fewer = .ok longer ∧ longer.Outlasts shorter) ∧
    (∀ left right, (∀ node, ¬TransGen left.Joins node node) → (∀ earlier later,
        TransGen left.Joins earlier later ↔ TransGen right.Joins earlier later) →
      raw.removeOverlaps group left = raw.removeOverlaps group right) ∧
    ∀ (graph : Graph MilestoneId) (redundant : List (Edge MilestoneId)),
      (∀ node, ¬TransGen graph.Joins node node) →
      (∀ edge ∈ redundant, TransGen graph.Joins edge.source edge.target) →
        raw.removeOverlaps group (redundant.foldl Graph.addEdge graph) =
          raw.removeOverlaps group graph := by
  refine ⟨fun graph timeline => removeOverlaps_again numeric,
    fun fewer more shorter => removeOverlaps_of_more numeric, ?_, ?_⟩
  · intro left right acyclic reach
    exact removeOverlaps_of_same acyclic (funext₂ fun earlier later => propext (reach earlier later))
  · intro graph redundant acyclic edges
    exact (removeOverlaps_of_same acyclic (Graph.transGen_foldl_addEdge edges).symm).symm

/-- The row without the edge to its last milestone. -/
def cutRow : Graph MilestoneId :=
  .ofLists [⟨"A"⟩, ⟨"B"⟩, ⟨"C"⟩] [⟨⟨"A"⟩, ⟨"B"⟩⟩, ⟨⟨"C"⟩, ⟨"D"⟩⟩]

/-- The clamped row is clamped no further. Over the row without the edge to its last milestone the first
one is left at least as long, and an edge from the first to the last changes neither the timeline nor
the error. -/
theorem removeOverlaps_reachability_row :
    (rowTimes late (.ofBits 0x4000000000000000)).Numeric ∧
    (rowTimes (.ofBits 0x4000000000000000) (.ofBits 0x4000000000000000)).removeOverlaps ⟨"G"⟩ row =
      .ok (rowTimes (.ofBits 0x4000000000000000) (.ofBits 0x4000000000000000)) ∧
    (∃ longer, (rowTimes late (.ofBits 0x4000000000000000)).removeOverlaps ⟨"G"⟩ cutRow = .ok longer ∧
      longer.Outlasts (rowTimes (.ofBits 0x4000000000000000) (.ofBits 0x4000000000000000))) ∧
    (rowTimes late (.ofBits 0x4000000000000000)).removeOverlaps ⟨"G"⟩
        (row.addEdge ⟨⟨"A"⟩, ⟨"C"⟩⟩) =
      .ok (rowTimes (.ofBits 0x4000000000000000) (.ofBits 0x4000000000000000)) ∧
    (rowTimes late (.ofBits 0)).removeOverlaps ⟨"G"⟩ (row.addEdge ⟨⟨"A"⟩, ⟨"C"⟩⟩) =
      .error (.overlap ⟨"G"⟩ ⟨"A"⟩ ⟨"C"⟩ early (.ofBits 0)) := by
  obtain ⟨numeric, numericOverlap⟩ := numeric_rowTimes
  have acyclic : ∀ node, ¬TransGen row.Joins node node :=
    Graph.cycles_eq_nil_iff.mp (removeOverlaps_eq_ok_iff.mp removeOverlaps_row).1
  have redundant : ∀ edge ∈ [(⟨⟨"A"⟩, ⟨"C"⟩⟩ : Edge MilestoneId)],
      TransGen row.Joins edge.source edge.target := by
    intro edge listed
    obtain rfl := List.mem_singleton.mp listed
    exact .tail (.single (by decide : row.Joins ⟨"A"⟩ ⟨"B"⟩)) (by decide : row.Joins ⟨"B"⟩ ⟨"C"⟩)
  have fewer : ∀ earlier later, cutRow.Joins earlier later → row.Joins earlier later := by
    rintro earlier later ⟨edge, source, target⟩
    have kept : ∀ edge ∈ cutRow.edges.toList, edge ∈ row.edges := by decide
    exact ⟨kept _ edge, source, target⟩
  obtain ⟨again, less, _, edges⟩ := removeOverlaps_reachability ⟨"G"⟩ _ numeric
  obtain ⟨_, _, same, _⟩ := removeOverlaps_reachability ⟨"G"⟩ _ numericOverlap
  refine ⟨numeric, again _ _ removeOverlaps_row, ?_, ?_, ?_⟩
  · exact less _ _ _ (TransGen.mono fewer) removeOverlaps_row
  · exact (edges row _ acyclic redundant).trans removeOverlaps_row
  · have reach := Graph.transGen_foldl_addEdge redundant
    rw [← removeOverlaps_row_overlap]
    exact (same _ _ acyclic fun earlier later => by rw [← reach]; rfl).symm

end GroupTimeline

end ProcessFlow
