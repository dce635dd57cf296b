import ProcessFlow.Proofs.Graph.Dangling

/-! # Parts of a graph

The part of a graph within a set of nodes joins those of the nodes that the graph joins. So its cycles
are the cycles of the graph that do not leave the set, though the search for them runs through other
successors. The part within the nodes of the graph itself only lacks the edges that dangle, and these
never matter.
-/

namespace ProcessFlow

namespace Graph

variable {α : Type} [LT α] [DecidableEq α] {graph : Graph α} {keep : OrderedSet α}
  {source target node : α} {cycle : List α}

theorem mem_induced : node ∈ graph.induced keep ↔ node ∈ graph ∧ node ∈ keep := by
  rw [mem_iff, induced, OrderedSet.mem_filter, decide_eq_true_eq, mem_iff]

theorem mem_edges_induced {edge : Edge α} : edge ∈ (graph.induced keep).edges ↔
    edge ∈ graph.edges ∧ edge.source ∈ keep ∧ edge.target ∈ keep := by
  rw [induced, OrderedSet.mem_filter, Bool.and_eq_true, decide_eq_true_eq, decide_eq_true_eq]

theorem joins_induced : (graph.induced keep).Joins source target ↔
    graph.Joins source target ∧ source ∈ keep ∧ target ∈ keep := by
  rw [Joins, Joins, mem_edges_induced, mem_induced, mem_induced]
  tauto

/-- The nodes of a cycle are nodes of the graph. -/
theorem IsCycle.mem (isCycle : graph.IsCycle cycle) (member : node ∈ cycle) : node ∈ graph := by
  obtain ⟨_, joins, _⟩ := Relation.TransGen.head'_iff.mp (isCycle.transGen member)
  exact joins.2.1

theorem isCycle_induced : (graph.induced keep).IsCycle cycle ↔
    graph.IsCycle cycle ∧ ∀ node ∈ cycle, node ∈ keep := by
  constructor
  · intro isCycle
    have kept : ∀ node ∈ cycle, node ∈ keep := fun node member => (mem_induced.mp (isCycle.mem member)).2
    refine ⟨⟨isCycle.solid, isCycle.distinct, ?_, ?_⟩, kept⟩
    · exact isCycle.joined.imp fun _ _ joins => (joins_induced.mp joins).1
    · exact fun last isLast first isFirst => (joins_induced.mp (isCycle.closed last isLast first isFirst)).1
  · rintro ⟨isCycle, kept⟩
    refine ⟨isCycle.solid, isCycle.distinct, ?_, fun last isLast first isFirst => ?_⟩
    · refine isCycle.joined.imp_of_mem_imp fun source target isSource isTarget joins => ?_
      exact joins_induced.mpr ⟨joins, kept source isSource, kept target isTarget⟩
    · exact joins_induced.mpr ⟨isCycle.closed last isLast first isFirst,
        kept last (List.mem_of_getLast? isLast), kept first (List.mem_of_head? isFirst)⟩

/-- The part of a graph within its own nodes has them all. -/
theorem nodes_induced_nodes [LE α] [Std.LawfulOrderLT α] (graph : Graph α) :
    (graph.induced graph.nodes).nodes = graph.nodes := by
  ext node
  exact mem_induced.trans and_self_iff

theorem joins_induced_nodes (graph : Graph α) : (graph.induced graph.nodes).Joins = graph.Joins := by
  funext source target
  rw [eq_iff_iff, joins_induced]
  exact and_iff_left_of_imp And.right

variable [LE α] [DecidableLT α] [Std.IsLinearOrder α] [Std.LawfulOrderLT α]

/-- The cycles of a part are the cycles within it, in their order. -/
theorem cycles_induced (graph : Graph α) (keep : OrderedSet α) : (graph.induced keep).cycles =
    graph.cycles.filter fun cycle => ∀ node ∈ cycle, node ∈ keep := by
  apply eq_of_pairwise cycleOrder_asymm (graph.induced keep).cycles_ascending
    (graph.cycles_ascending.filter _)
  intro cycle
  rw [mem_cycles_iff, isCycle_induced, List.mem_filter, mem_cycles_iff, decide_eq_true_eq,
    and_right_comm]

/-- A graph that lacks one node of another, and only the edges at this node, has the cycles that do not
run through it. -/
theorem cycles_of_lacking {left right : Graph α} {node : α}
    (members : ∀ other, other ∈ left ↔ other ∈ right ∧ other ≠ node)
    (joins : ∀ source target, left.Joins source target ↔
      right.Joins source target ∧ source ≠ node ∧ target ≠ node) :
    left.cycles = right.cycles.filter (node ∉ ·) := by
  have nodes : left.nodes = (right.induced left.nodes).nodes := by
    ext other
    exact (and_iff_right_of_imp fun member => ((members other).mp member).1).symm.trans mem_induced.symm
  have sameJoins : left.Joins = (right.induced left.nodes).Joins := by
    funext source target
    rw [eq_iff_iff, joins_induced, joins]
    refine and_congr_right fun joined => ?_
    rw [← mem_iff, ← mem_iff, members, members, and_iff_right joined.2.1, and_iff_right joined.2.2]
  rw [cycles_congr nodes sameJoins, cycles_induced]
  apply List.filter_congr
  intro cycle listed
  rw [decide_eq_decide]
  constructor
  · exact fun inside member => ((members node).mp (inside node member)).2 rfl
  · intro outside other member
    refine (members other).mpr ⟨(mem_cycles_iff.mp listed).1.mem member, ?_⟩
    rintro rfl
    exact outside member

/-- The cycles of the part of a graph within a set of nodes are the cycles of the graph that do not
leave the set, in the same order. The part within the nodes of the graph lacks the edges that dangle and
nothing else, and all that is found in it is what is found in the graph. -/
theorem induced_exact (graph : Graph α) (keep : OrderedSet α) :
    (graph.induced keep).cycles =
      (graph.cycles.filter fun cycle => ∀ node ∈ cycle, node ∈ keep) ∧
    (graph.induced graph.nodes).nodes = graph.nodes ∧
    (∀ edge, edge ∈ (graph.induced graph.nodes).edges ↔ graph.Joins edge.source edge.target) ∧
    (graph.induced graph.nodes).cycles = graph.cycles ∧
    (graph.induced graph.nodes).topologicalSort = graph.topologicalSort ∧
    (graph.induced graph.nodes).components = graph.components ∧
    (graph.induced graph.nodes).descendants = graph.descendants ∧
    (graph.induced graph.nodes).successors = graph.successors ∧
    (graph.induced graph.nodes).isReachable = graph.isReachable := by
  have nodes := graph.nodes_induced_nodes
  have joins := graph.joins_induced_nodes
  refine ⟨graph.cycles_induced keep, nodes, fun edge => mem_edges_induced, cycles_congr nodes joins,
    topologicalSort_congr nodes joins, components_congr nodes joins,
    funext (descendants_congr (congrArg Relation.TransGen joins)), successors_congr joins,
    isReachable_congr nodes joins⟩

/-- Cycles that share nodes, and edges that dangle. -/
def chained : Graph Nat := .ofLists [1, 2, 3, 4]
  [⟨1, 2⟩, ⟨2, 1⟩, ⟨2, 3⟩, ⟨3, 2⟩, ⟨3, 1⟩, ⟨3, 4⟩, ⟨4, 3⟩, ⟨4, 5⟩, ⟨5, 1⟩]

/-- Without the node four one cycle is lost. Without the edges at five the graph is another one, with the
same cycles. -/
theorem induced_exact_chained :
    (chained.induced (.ofList [9, 3, 2, 1])).cycles = [[1, 2], [2, 3], [1, 2, 3]] ∧
      chained.induced chained.nodes ≠ chained ∧
      (chained.induced chained.nodes).cycles = [[1, 2], [2, 3], [3, 4], [1, 2, 3]] ∧
      (chained.induced chained.nodes).components = chained.components ∧
      (chained.induced chained.nodes).isReachable 4 1 = true := by
  obtain ⟨within, _, _, cycles, _, components, _, _, reachable⟩ :=
    induced_exact chained (.ofList [9, 3, 2, 1])
  have listed : chained.cycles = [[1, 2], [2, 3], [3, 4], [1, 2, 3]] := by cbv
  have reached : chained.isReachable 4 1 = true := by cbv
  rw [listed] at within cycles
  rw [← reachable] at reached
  exact ⟨within.trans (by decide), by decide, cycles, components, reached⟩

end Graph

end ProcessFlow
