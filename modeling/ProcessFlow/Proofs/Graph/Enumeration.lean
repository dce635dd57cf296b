import Mathlib
import ProcessFlow.Proofs.Graph.Circuit

/-! # The enumeration of simple cycles

The cycles of a graph are listed by length first and node by node among equal lengths. The list
holds each simple cycle once, written from its least node. The search behind it may therefore be
exchanged for plain exhaustive search.
-/

namespace ProcessFlow

namespace Graph

variable {α : Type} [LT α] [LE α] [DecidableLT α] [DecidableEq α] [Std.IsLinearOrder α]
  [Std.LawfulOrderLT α]

/-! ## The order of the list -/

omit [DecidableEq α] in
theorem lexicallyBefore_iff {left right : List α} :
    lexicallyBefore left right = true ↔ left ≤ right := by
  induction left generalizing right with
  | nil => simp [lexicallyBefore]
  | cons head rest ih =>
    cases right with
    | nil => simp [lexicallyBefore]
    | cons other others =>
      rw [lexicallyBefore, List.cons_le_cons_iff, ← ih]
      split
      · rename_i less
        simp [less]
      · rename_i notLess
        split
        · rename_i greater
          have different : head ≠ other := fun same => notLess (same ▸ greater)
          simp [notLess, different]
        · rename_i notGreater
          have same : head = other := Std.le_antisymm (Std.not_lt.mp notGreater) (Std.not_lt.mp notLess)
          simp only [same, Std.lt_irrefl, true_and, false_or]

omit [DecidableEq α] in
theorem listedBefore_iff {left right : List α} : listedBefore left right = true ↔
    left.length < right.length ∨ left.length = right.length ∧ left ≤ right := by
  simp [listedBefore, lexicallyBefore_iff]

omit [DecidableEq α] in
theorem listedBefore_trans (first second third : List α) (left : listedBefore first second = true)
    (right : listedBefore second third = true) : listedBefore first third = true := by
  rw [listedBefore_iff] at left right ⊢
  rcases left with shorter | ⟨sameLeft, left⟩ <;> rcases right with shorter' | ⟨sameRight, right⟩
  · exact .inl (by omega)
  · exact .inl (by omega)
  · exact .inl (by omega)
  · exact .inr ⟨by omega, Std.le_trans left right⟩

omit [DecidableEq α] in
theorem listedBefore_total (left right : List α) :
    (listedBefore left right || listedBefore right left) = true := by
  rw [Bool.or_eq_true, listedBefore_iff, listedBefore_iff]
  rcases Nat.lt_trichotomy left.length right.length with shorter | same | longer
  · exact .inl (.inl shorter)
  · exact (Std.le_total : left ≤ right ∨ right ≤ left).imp (fun le => .inr ⟨same, le⟩)
      fun le => .inr ⟨same.symm, le⟩
  · exact .inr (.inl longer)

omit [DecidableEq α] in
theorem listedBefore_antisymm {left right : List α} (one : listedBefore left right = true)
    (two : listedBefore right left = true) : left = right := by
  rw [listedBefore_iff] at one two
  rcases one with shorter | ⟨_, le⟩
  · rcases two with shorter' | ⟨same, _⟩ <;> omega
  · rcases two with shorter' | ⟨_, ge⟩
    · omega
    · exact Std.le_antisymm le ge

/-! ## Plain search from one start -/

omit [LE α] [Std.IsLinearOrder α] [Std.LawfulOrderLT α] in
/-- All paths from a node back to it through greater nodes. -/
def waysAround (graph : Graph α) (start : α) : List (List α) :=
  (graph.successors start).flatMap
    (closings graph.successors start (graph.nodes.filter (start < ·)) [start])

omit [Std.IsLinearOrder α] in
theorem not_mem_greater (graph : Graph α) (start : α) :
    start ∉ graph.nodes.filter (start < ·) := by
  simp [OrderedSet.mem_filter, Std.lt_irrefl]

/-- Plain search from a node finds the simple cycles whose least node it is. -/
theorem mem_waysAround_iff {graph : Graph α} {start : α} {cycle : List α} :
    cycle ∈ graph.waysAround start ↔
      graph.IsCycle cycle ∧ LeastFirst cycle ∧ cycle.head? = some start := by
  simp only [waysAround, List.mem_flatMap, mem_closings_iff (graph.not_mem_greater start),
    mem_successors, OrderedSet.mem_filter, decide_eq_true_eq, List.singleton_append]
  constructor
  · rintro ⟨after, step, rest, rfl, distinct, inside, first, walk⟩
    have around : ((start :: rest) ++ [start]).IsChain graph.Joins := by
      refine List.isChain_cons.mpr ⟨fun target head => ?_, walk⟩
      rw [show target = after by simpa [first] using head.symm]
      exact step
    obtain ⟨joined, _, across⟩ := List.isChain_append.mp around
    refine ⟨⟨by simp, List.nodup_cons.mpr ⟨?_, distinct⟩, joined, ?_⟩, ?_, rfl⟩
    · intro repeated
      exact Std.lt_irrefl (inside start repeated).2
    · intro last isLast first isFirst
      cases isFirst
      exact across last isLast start rfl
    · intro first isFirst node member
      cases isFirst
      rcases List.mem_cons.mp member with rfl | later
      · exact Std.le_refl node
      · exact Std.le_of_lt (inside node later).2
  · rintro ⟨⟨_, distinct, joined, closed⟩, least, first⟩
    obtain ⟨rest, rfl⟩ := List.head?_eq_some_iff.mp first
    have around : (start :: (rest ++ [start])).IsChain graph.Joins := by
      refine List.isChain_append.mpr ⟨joined, .singleton _, fun last isLast next isNext => ?_⟩
      cases isNext
      exact closed last isLast start rfl
    obtain ⟨step, walk⟩ := List.isChain_cons.mp around
    obtain ⟨after, isAfter⟩ : ∃ after, (rest ++ [start]).head? = some after := by
      cases rest <;> exact ⟨_, rfl⟩
    obtain ⟨fresh, distinct⟩ := List.nodup_cons.mp distinct
    refine ⟨after, step after isAfter, rest, rfl, distinct, fun node member => ⟨?_, ?_⟩, isAfter, walk⟩
    · exact mem_of_isChain around node (List.mem_append_left _ member)
    · refine Std.lt_of_le_of_ne (least start rfl node (List.mem_cons_of_mem _ member)) ?_
      rintro rfl
      exact fresh member

omit [Std.IsLinearOrder α] in
theorem nodup_waysAround (graph : Graph α) (start : α) : (graph.waysAround start).Nodup := by
  have distinct (node : α) : (graph.successors node).Nodup :=
    (graph.successors_ascending node).imp Std.ne_of_lt
  exact nodup_flatMap_closings (graph.not_mem_greater start) (distinct start) fun _ _ =>
    nodup_closings distinct (graph.not_mem_greater start)

/-! ## Blocking search from one start -/

omit [LE α] [Std.IsLinearOrder α] [Std.LawfulOrderLT α] in
/-- The nodes that a search from a start may walk through. -/
def nodesFrom (graph : Graph α) (start : α) : OrderedSet α := graph.nodes.filter (¬ · < start)

omit [LE α] [Std.IsLinearOrder α] [Std.LawfulOrderLT α] in
/-- The successors that a search from a start looks at. -/
def successorsFrom (graph : Graph α) (start node : α) : List α :=
  (graph.successors node).filter (¬ · < start)

omit [Std.IsLinearOrder α] in
theorem mem_nodesFrom_self {graph : Graph α} {start : α} (member : start ∈ graph) :
    start ∈ graph.nodesFrom start :=
  OrderedSet.mem_filter.mpr ⟨member, by simp [Std.lt_irrefl]⟩

omit [LE α] [Std.IsLinearOrder α] [Std.LawfulOrderLT α] in
theorem mem_nodesFrom_of_step {graph : Graph α} {start source target : α}
    (step : target ∈ graph.successorsFrom start source) : target ∈ graph.nodesFrom start := by
  obtain ⟨step, above⟩ := List.mem_filter.mp step
  exact OrderedSet.mem_filter.mpr ⟨(mem_successors.mp step).2.2, above⟩

omit [LE α] [Std.IsLinearOrder α] [Std.LawfulOrderLT α] in
theorem size_nodesFrom_le (graph : Graph α) (start : α) : (graph.nodesFrom start).size ≤ graph.size :=
  OrderedSet.size_filter_le ..

theorem cyclesFrom_successors (graph : Graph α) (bound : Nat) (start : α) :
    cyclesFrom graph.successors bound start =
      (CircuitSearch.circuit (graph.successorsFrom start) start bound [] start .initial).2.found := rfl

/-- The search from a node of the graph finds what plain search finds. -/
theorem cyclesFrom_eq {graph : Graph α} {start : α} (member : start ∈ graph) :
    cyclesFrom graph.successors graph.size start = (graph.waysAround start).reverse := by
  have inside : ∀ other ∈ [] ++ [start], other ∈ graph.nodesFrom start :=
    List.forall_mem_singleton.mpr (mem_nodesFrom_self member)
  have room : (graph.nodesFrom start).size ≤ ([] : List α).length + graph.size := by
    rw [List.length_nil, Nat.zero_add]
    exact graph.size_nodesFrom_le start
  have field : (graph.nodesFrom start).filter (· ∉ [] ++ [start]) =
      graph.nodes.filter (start < ·) := by
    ext other
    simp only [nodesFrom, OrderedSet.mem_filter, List.nil_append, List.mem_singleton, decide_eq_true_eq,
      Std.not_lt, and_assoc]
    refine and_congr Iff.rfl ⟨fun above => ?_, fun above => ⟨Std.le_of_lt above, ?_⟩⟩
    · exact Std.lt_of_le_of_ne above.1 (Ne.symm above.2)
    · exact (Std.ne_of_lt above).symm
  have explored := CircuitSearch.circuit_explores (fun _ _ => mem_nodesFrom_of_step)
    (CircuitSearch.coherent_initial (graph.successorsFrom start) start) OrderedSet.not_mem_empty
    inside room
  rw [field, List.nil_append] at explored
  rw [cyclesFrom_successors, explored.found, CircuitSearch.initial, List.append_nil, waysAround]
  have start_kept : decide (¬ start < start) := by simp [Std.lt_irrefl]
  have kept : ∀ other ∈ graph.nodes.filter (start < ·), decide (¬ other < start) := by
    intro other above
    have := (OrderedSet.mem_filter.mp above).2
    simp only [decide_eq_true_eq] at this ⊢
    exact Std.not_lt.mpr (Std.le_of_lt this)
  apply congrArg List.reverse
  calc ((graph.successors start).filter (¬ · < start)).flatMap
        (closings (fun source => (graph.successors source).filter (¬ · < start)) start
          (graph.nodes.filter (start < ·)) [start])
    _ = ((graph.successors start).filter (¬ · < start)).flatMap
        (closings graph.successors start (graph.nodes.filter (start < ·)) [start]) :=
      List.flatMap_congr fun _ _ => closings_filter (¬ · < start) start_kept kept
    _ = (graph.successors start).flatMap
        (closings graph.successors start (graph.nodes.filter (start < ·)) [start]) :=
      flatMap_closings_filter (¬ · < start) start_kept kept _

/-! ## The whole list -/

/-- The cycles of a graph by plain search from each of its nodes, in the order of the list. -/
def exhaustiveCycles (graph : Graph α) : List (List α) :=
  (graph.nodes.toList.flatMap graph.waysAround).mergeSort listedBefore

/-- The list of cycles is put together from the findings of plain search. -/
theorem cycles_perm (graph : Graph α) :
    graph.cycles.Perm (graph.nodes.toList.flatMap graph.waysAround) := by
  have adjacency : (fun node => graph.adjacency.getD node []) = graph.successors :=
    funext graph.getD_adjacency
  rw [cycles, adjacency]
  refine (List.mergeSort_perm _ _).trans (List.Perm.flatMap_left _ fun start member => ?_)
  rw [cyclesFrom_eq member]
  exact List.reverse_perm _

theorem mem_cycles_iff {graph : Graph α} {cycle : List α} :
    cycle ∈ graph.cycles ↔ graph.IsCycle cycle ∧ LeastFirst cycle := by
  simp only [graph.cycles_perm.mem_iff, List.mem_flatMap, mem_waysAround_iff]
  constructor
  · rintro ⟨_, _, isCycle, least, _⟩
    exact ⟨isCycle, least⟩
  · rintro ⟨isCycle, least⟩
    obtain ⟨first, rest, rfl⟩ := List.exists_cons_of_ne_nil isCycle.solid
    have closing := isCycle.closed _ (List.getLast?_eq_some_getLast isCycle.solid) first rfl
    exact ⟨first, closing.2.2, isCycle, least, rfl⟩

theorem nodup_cycles (graph : Graph α) : graph.cycles.Nodup := by
  rw [graph.cycles_perm.nodup_iff]
  have distinct := graph.nodes.ascending.imp Std.ne_of_lt
  refine List.nodup_flatMap.mpr ⟨fun start _ => graph.nodup_waysAround start, distinct.imp ?_⟩
  intro left right differ cycle leftMember rightMember
  have leftFirst := (mem_waysAround_iff.mp leftMember).2.2
  have rightFirst := (mem_waysAround_iff.mp rightMember).2.2
  exact differ (Option.some.inj (leftFirst.symm.trans rightFirst))

theorem cycles_sorted (graph : Graph α) :
    graph.cycles.Pairwise (fun left right => listedBefore left right = true) :=
  List.pairwise_mergeSort listedBefore_trans listedBefore_total _

/-- Short cycles come first, and those of one length node by node. -/
theorem cycles_ascending (graph : Graph α) : graph.cycles.Pairwise fun left right =>
    left.length < right.length ∨ left.length = right.length ∧ left < right := by
  refine (List.pairwise_and_iff.mpr ⟨graph.cycles_sorted, graph.nodup_cycles⟩).imp ?_
  rintro left right ⟨before, different⟩
  refine (listedBefore_iff.mp before).imp_right fun ⟨same, le⟩ => ⟨same, ?_⟩
  exact Std.lt_of_le_of_ne le different

omit [DecidableLT α] [DecidableEq α] [Std.IsLinearOrder α] in
/-- No two lists each come before the other. -/
theorem cycleOrder_asymm {left right : List α}
    (before : left.length < right.length ∨ left.length = right.length ∧ left < right) :
    ¬(right.length < left.length ∨ right.length = left.length ∧ right < left) := by
  rintro (longer | ⟨_, greater⟩)
  · rcases before with shorter | ⟨same, _⟩ <;> omega
  · rcases before with shorter | ⟨_, less⟩
    · omega
    · exact Std.not_gt_of_lt less greater

theorem cycles_eq_exhaustiveCycles (graph : Graph α) : graph.cycles = graph.exhaustiveCycles := by
  refine List.Perm.eq_of_pairwise (fun _ _ _ _ => listedBefore_antisymm) graph.cycles_sorted
    (List.pairwise_mergeSort listedBefore_trans listedBefore_total _) ?_
  exact graph.cycles_perm.trans (List.mergeSort_perm _ _).symm

/-- Some rotation of a simple cycle is listed, the one that begins with the least node. -/
theorem exists_rotate_mem_cycles {graph : Graph α} {cycle : List α} (isCycle : graph.IsCycle cycle) :
    ∃ turns, cycle.rotate turns ∈ graph.cycles := by
  obtain ⟨least, member, below⟩ := exists_least isCycle.solid
  obtain ⟨before, after, rfl⟩ := List.append_of_mem member
  refine ⟨before.length, ?_⟩
  rw [List.rotate_append_length_eq, mem_cycles_iff]
  refine ⟨isCycle.turn, fun first isFirst node present => ?_⟩
  cases isFirst
  apply below
  rw [List.mem_append] at present ⊢
  exact present.symm

/-- The cycles of a graph are its simple cycles, each written once and from its least node, in
ascending order of length and then of nodes; plain exhaustive search gives the same list. -/
theorem cycles_exact (graph : Graph α) :
    (∀ cycle, cycle ∈ graph.cycles ↔ graph.IsCycle cycle ∧ LeastFirst cycle) ∧
      (∀ cycle, graph.IsCycle cycle → ∃ turns, cycle.rotate turns ∈ graph.cycles) ∧
      graph.cycles.Nodup ∧
      graph.cycles.Pairwise (fun left right =>
        left.length < right.length ∨ left.length = right.length ∧ left < right) ∧
      graph.cycles = graph.exhaustiveCycles :=
  ⟨fun _ => mem_cycles_iff, fun _ => exists_rotate_mem_cycles, graph.nodup_cycles,
    graph.cycles_ascending, graph.cycles_eq_exhaustiveCycles⟩

/-- Cycles within one another, a self loop, and edges that dangle. -/
def crossing : Graph Nat :=
  .ofLists [3, 1, 2] [⟨1, 2⟩, ⟨2, 3⟩, ⟨3, 1⟩, ⟨3, 2⟩, ⟨3, 3⟩, ⟨3, 4⟩, ⟨4, 3⟩]

theorem cycles_exact_crossing :
    crossing.cycles = [[3], [2, 3], [1, 2, 3]] ∧
      (∃ turns, [3, 1, 2].rotate turns ∈ crossing.cycles) ∧ [3, 4] ∉ crossing.cycles ∧
      crossing.cycles = crossing.exhaustiveCycles := by
  obtain ⟨members, rotations, _, _, same⟩ := cycles_exact crossing
  refine ⟨by cbv, rotations [3, 1, 2] ⟨by decide, by decide, by decide, by decide⟩, ?_, same⟩
  intro listed
  exact absurd ((members [3, 4]).mp listed).1.joined (by decide)

end Graph

end ProcessFlow
