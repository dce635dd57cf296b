import ProcessFlow.Proofs.Graph.Enumeration
import ProcessFlow.Proofs.Graph.Reach
import ProcessFlow.Proofs.Graph.Topological

/-! # Graphs without cycles

A walk that leads back to its node can be cut short to a simple cycle through the node, and a simple
cycle leads from each of its nodes back to it. So the list of cycles is empty exactly if no node
leads to itself. In a topological order every node comes before what it leads to, so that there is
one exactly if there are no cycles.
-/

namespace ProcessFlow

namespace Graph

open Relation

variable {α : Type} [LT α] [DecidableEq α] {graph : Graph α} {source target node : α}
  {cycle : List α}

/-- Distinct nodes from one to another, each joined to the next. -/
structure IsPath (graph : Graph α) (source target : α) (path : List α) : Prop where
  first : path.head? = some source
  last : path.getLast? = some target
  distinct : path.Nodup
  joined : path.IsChain graph.Joins

/-- The part of a path from one of its nodes on is a path. -/
theorem IsPath.suffix {before after : List α}
    (path : graph.IsPath source target (before ++ node :: after)) :
    graph.IsPath node target (node :: after) where
  first := rfl
  last := by rw [← path.last, List.getLast?_append_of_ne_nil _ (List.cons_ne_nil node after)]
  distinct := (List.nodup_append.mp path.distinct).2.1
  joined := (List.isChain_append.mp path.joined).2.1

theorem exists_path_of_reflTransGen (walk : ReflTransGen graph.Joins source target) :
    ∃ path, graph.IsPath source target path := by
  induction walk using ReflTransGen.head_induction_on with
  | refl => exact ⟨[target], rfl, rfl, List.nodup_singleton _, .singleton _⟩
  | @head first second step _ ih =>
    obtain ⟨path, isPath⟩ := ih
    by_cases member : first ∈ path
    · -- A path that comes back to the node is cut off before it.
      obtain ⟨before, after, rfl⟩ := List.append_of_mem member
      exact ⟨first :: after, isPath.suffix⟩
    · obtain ⟨head, rest, rfl⟩ : ∃ head rest, path = head :: rest := by
        cases path with
        | nil => cases isPath.first
        | cons head rest => exact ⟨head, rest, rfl⟩
      obtain rfl : head = second := Option.some.inj isPath.first
      refine ⟨first :: head :: rest, rfl, ?_, List.nodup_cons.mpr ⟨member, isPath.distinct⟩,
        .cons_cons step isPath.joined⟩
      rw [List.getLast?_cons_cons, isPath.last]

/-- A node that leads to itself is on a simple cycle. -/
theorem exists_cycle_of_transGen (walk : TransGen graph.Joins node node) :
    ∃ cycle, graph.IsCycle cycle ∧ node ∈ cycle := by
  obtain ⟨next, step, back⟩ := TransGen.head'_iff.mp walk
  obtain ⟨path, isPath⟩ := exists_path_of_reflTransGen back
  refine ⟨path, ⟨?_, isPath.distinct, isPath.joined, ?_⟩, List.mem_of_getLast? isPath.last⟩
  · rintro rfl
    cases isPath.first
  · intro last isLast first isFirst
    obtain rfl : node = last := Option.some.inj (isPath.last.symm.trans isLast)
    obtain rfl : next = first := Option.some.inj (isPath.first.symm.trans isFirst)
    exact step

/-- The nodes of a simple cycle lead to themselves. -/
theorem IsCycle.transGen (isCycle : graph.IsCycle cycle) (member : node ∈ cycle) :
    TransGen graph.Joins node node := by
  obtain ⟨before, after, rfl⟩ := List.append_of_mem member
  have turned := isCycle.turn
  have walk := List.relationReflTransGen_of_exists_isChain_cons _ turned.joined rfl
  exact .tail' walk (turned.closed _ (List.getLast?_eq_some_getLast _) _ rfl)

section Enumerated

variable [LE α] [DecidableLT α] [Std.IsLinearOrder α] [Std.LawfulOrderLT α]

/-- The nodes of the listed cycles are those that lead to themselves. -/
theorem transGen_iff_mem_cycles :
    TransGen graph.Joins node node ↔ ∃ cycle ∈ graph.cycles, node ∈ cycle := by
  constructor
  · intro walk
    obtain ⟨cycle, isCycle, member⟩ := exists_cycle_of_transGen walk
    obtain ⟨turns, listed⟩ := exists_rotate_mem_cycles isCycle
    exact ⟨_, listed, List.mem_rotate.mpr member⟩
  · rintro ⟨cycle, listed, member⟩
    exact (mem_cycles_iff.mp listed).1.transGen member

/-- The list of cycles is empty exactly if no node leads to itself. -/
theorem cycles_eq_nil_iff : graph.cycles = [] ↔ ∀ node, ¬TransGen graph.Joins node node := by
  rw [List.eq_nil_iff_forall_not_mem]
  constructor
  · intro none node walk
    obtain ⟨cycle, listed, _⟩ := transGen_iff_mem_cycles.mp walk
    exact none cycle listed
  · intro acyclic cycle listed
    have solid := (mem_cycles_iff.mp listed).1.solid
    obtain ⟨node, member⟩ := List.exists_mem_of_ne_nil cycle solid
    exact acyclic node (transGen_iff_mem_cycles.mpr ⟨cycle, listed, member⟩)

/-- A node comes in a topological order before whatever it leads to. -/
theorem idxOf_lt_of_transGen {order : List α} (sorted : graph.topologicalSort = some order)
    (walk : TransGen graph.Joins source target) : order.idxOf source < order.idxOf target := by
  obtain ⟨all, before⟩ := order_of_topologicalSort sorted
  have distinct : order.Nodup := all.nodup_iff.mpr (graph.nodes.ascending.imp Std.ne_of_lt)
  have edge (first last : α) (joins : graph.Joins first last) :
      order.idxOf first < order.idxOf last := by
    obtain ⟨front, back, rfl, inFront, inBack⟩ := List.cons_sublist_iff.mp (before first last joins)
    have notInFront : last ∉ front := fun member =>
      (List.nodup_append.mp distinct).2.2 last member last (List.singleton_sublist.mp inBack) rfl
    rw [List.idxOf_append_of_mem inFront, List.idxOf_append_of_notMem notInFront]
    exact Nat.lt_of_lt_of_le (List.idxOf_lt_length_of_mem inFront) (Nat.le_add_right ..)
  induction walk with
  | single joins => exact edge source _ joins
  | tail _ joins ih => exact Nat.lt_trans ih (edge _ _ joins)

/-- There is a topological order exactly if no node leads to itself. -/
theorem exists_topologicalSort_iff : (∃ order, graph.topologicalSort = some order) ↔
    ∀ node, ¬TransGen graph.Joins node node := by
  constructor
  · rintro ⟨order, sorted⟩ node walk
    exact Nat.lt_irrefl _ (idxOf_lt_of_transGen sorted walk)
  · exact exists_topologicalSort

/-- The list of cycles is empty exactly if there is a topological order, and exactly if no node is
among its own descendants. A node is among its own descendants exactly if it is on a listed cycle. -/
theorem cycles_descendants_order_agree (graph : Graph α) :
    (graph.cycles = [] ↔ ∃ order, graph.topologicalSort = some order) ∧
    ((∃ order, graph.topologicalSort = some order) ↔ ∀ node, node ∉ graph.descendants node) ∧
    ∀ node, node ∈ graph.descendants node ↔ ∃ cycle ∈ graph.cycles, node ∈ cycle := by
  refine ⟨cycles_eq_nil_iff.trans exists_topologicalSort_iff.symm, ?_, fun node => ?_⟩
  · simp only [exists_topologicalSort_iff, mem_descendants]
  · rw [mem_descendants, transGen_iff_mem_cycles]

/-- Where cycles cross there is no topological order. The node two is on a cycle; four is outside
the graph, so the edges to and from it close none. -/
theorem cycles_descendants_order_agree_crossing :
    crossing.cycles ≠ [] ∧ crossing.topologicalSort = none ∧ 2 ∈ crossing.descendants 2 ∧
      4 ∉ crossing.descendants 4 := by
  obtain ⟨sorted, _, members⟩ := cycles_descendants_order_agree crossing
  have cycles : crossing.cycles = [[3], [2, 3], [1, 2, 3]] := by cbv
  rw [cycles] at sorted members
  refine ⟨by simp [cycles], ?_, (members 2).mpr ⟨[2, 3], by decide, by decide⟩, ?_⟩
  · rw [Option.eq_none_iff_forall_ne_some]
    intro order ordered
    cases sorted.mpr ⟨order, ordered⟩
  · exact fun member => absurd ((members 4).mp member) (by decide)

end Enumerated

end Graph

end ProcessFlow
