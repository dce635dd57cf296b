import ProcessFlow.Proofs.Graph.Components
import ProcessFlow.Proofs.Graph.LeastOrder

/-! # Edges that dangle

An edge to or from a node outside the graph joins nothing. Graphs with the same nodes in which the
same nodes are joined have the same successors, cycles, descendants, topological order and components,
whatever edges dangle.
-/

namespace ProcessFlow

namespace Graph

open Relation

variable {α : Type} [LE α] [LT α] [DecidableLT α] [DecidableEq α] [Std.IsLinearOrder α]
  [Std.LawfulOrderLT α] {left right : Graph α}

omit [DecidableLT α] [Std.IsLinearOrder α] in
theorem successors_congr (joins : left.Joins = right.Joins) : left.successors = right.successors := by
  funext node
  apply eq_of_pairwise Std.not_gt_of_lt (left.successors_ascending node)
    (right.successors_ascending node)
  intro next
  rw [mem_successors, mem_successors, joins]

theorem cycles_congr (nodes : left.nodes = right.nodes) (joins : left.Joins = right.Joins) :
    left.cycles = right.cycles := by
  have adjacency (graph : Graph α) :
      (fun node => graph.adjacency.getD node []) = graph.successors := funext graph.getD_adjacency
  rw [cycles, cycles, adjacency, adjacency, successors_congr joins, size, size, nodes]

omit [DecidableLT α] [Std.IsLinearOrder α] in
theorem isReachable_congr (nodes : left.nodes = right.nodes) (joins : left.Joins = right.Joins) :
    left.isReachable = right.isReachable := by
  funext source target
  rw [Bool.eq_iff_iff, isReachable_iff, isReachable_iff, mem_iff, mem_iff, mem_iff, mem_iff, nodes, joins]

omit [DecidableLT α] in
theorem components_congr (nodes : left.nodes = right.nodes) (joins : left.Joins = right.Joins) :
    left.components = right.components := by
  have divides := left.divides_components
  rw [nodes, joins] at divides
  exact divides.eq right.divides_components (EqvGen.is_equivalence _)

omit [LE α] [DecidableLT α] [Std.IsLinearOrder α] [Std.LawfulOrderLT α] in
theorem Emits.congr {gone order : List α} (nodes : left.nodes = right.nodes)
    (joins : left.Joins = right.Joins) (emits : left.Emits gone order) : right.Emits gone order := by
  obtain ⟨inside, distinct, sources, stuck⟩ := emits
  simp only [mem_iff, nodes] at inside stuck
  rw [joins] at sources stuck
  exact ⟨inside, distinct, sources, stuck⟩

/-- The nodes leave either graph in an order in which they can leave the other, and in the least
one. -/
theorem departures_congr (nodes : left.nodes = right.nodes) (joins : left.Joins = right.Joins) :
    left.departures = right.departures := by
  have leftLeast := departures_least (right.emits_departures.congr nodes.symm joins.symm)
  have rightLeast := departures_least (left.emits_departures.congr nodes joins)
  rcases leftLeast with same | less
  · exact same
  · rcases rightLeast with same | greater
    · exact same.symm
    · have before : left.departures < right.departures := less
      exact absurd greater (Std.not_gt_of_lt before)

theorem topologicalSort_congr (nodes : left.nodes = right.nodes) (joins : left.Joins = right.Joins) :
    left.topologicalSort = right.topologicalSort := by
  rw [topologicalSort_eq, topologicalSort_eq, departures_congr nodes joins, size, size, nodes]

end Graph

end ProcessFlow
