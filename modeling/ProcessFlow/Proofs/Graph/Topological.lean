import Mathlib.Data.Fintype.Card
import Mathlib.Data.Fintype.EquivFin
import Mathlib.Data.Fintype.Sets
import ProcessFlow.Graph.Topological

/-! # The order in which nodes leave

The countdown keeps, for every node, the count of its edges that are still open. Taking an edge away
closes it, and once all edges of a node that has left are closed, an edge is closed exactly if its
source has left. So a node leaves after every source of its edges, and one that never leaves waits
for another that never leaves. Without a way from a node to itself there can be none of those.
-/

namespace ProcessFlow

namespace Countdown

variable {α : Type} [LT α] [DecidableLT α] {node other : α} {list : List α}

theorem mem_placeReady : other ∈ placeReady node list ↔ other = node ∨ other ∈ list := by
  induction list with
  | nil => simp [placeReady]
  | cons head rest ih =>
    simp only [placeReady]
    split
    · simp only [List.mem_cons, ih, or_left_comm]
    · simp only [List.mem_cons]

theorem pairwise_placeReady [LE α] [Std.IsLinearOrder α] [Std.LawfulOrderLT α]
    (ascending : list.Pairwise (· < ·)) (fresh : node ∉ list) :
    (placeReady node list).Pairwise (· < ·) := by
  induction list with
  | nil => exact List.pairwise_singleton ..
  | cons head rest ih =>
    obtain ⟨least, tail⟩ := List.pairwise_cons.mp ascending
    rw [List.mem_cons, not_or] at fresh
    simp only [placeReady]
    split
    · rename_i less
      refine List.pairwise_cons.mpr ⟨fun later member => ?_, ih tail fresh.2⟩
      rcases mem_placeReady.mp member with rfl | present
      · exact less
      · exact least later present
    · rename_i notLess
      have less : node < head := Std.lt_of_le_of_ne (Std.not_lt.mp notLess) fresh.1
      refine List.pairwise_cons.mpr ⟨fun later member => ?_, ascending⟩
      rcases List.mem_cons.mp member with rfl | present
      · exact less
      · exact Std.lt_trans less (least later present)

end Countdown

namespace Graph

variable {α : Type} [LT α] [DecidableEq α] {graph : Graph α} {closed other : Edge α → Bool}
  {edge : Edge α} {node : α} {gone : List α}

/-- How many edges from nodes of the graph end in a node and are not closed. -/
def openEdges (graph : Graph α) (closed : Edge α → Bool) (node : α) : Nat :=
  graph.edges.toList.countP fun edge =>
    edge.target = node && decide (edge.source ∈ graph) && !closed edge

/-- Close one edge more. -/
def close (closed : Edge α → Bool) (edge : Edge α) (other : Edge α) : Bool :=
  closed other || decide (other = edge)

/-- The edges of nodes that have left. -/
def leaves (gone : List α) (edge : Edge α) : Bool := decide (edge.source ∈ gone)

theorem openEdges_eq_zero_iff : graph.openEdges closed node = 0 ↔
    ∀ source, ⟨source, node⟩ ∈ graph.edges → source ∈ graph → closed ⟨source, node⟩ = true := by
  simp only [openEdges, List.countP_eq_zero, Bool.and_eq_true, decide_eq_true_eq,
    Bool.not_eq_true', not_and, Bool.not_eq_false, and_imp, OrderedSet.mem_toList]
  constructor
  · intro none source present inside
    exact none ⟨source, node⟩ present rfl inside
  · rintro all ⟨source, target⟩ present rfl inside
    exact all source present inside

/-- Only edges between nodes of the graph are counted. -/
theorem openEdges_congr (inside : node ∈ graph)
    (same : ∀ edge ∈ graph.edges, edge.source ∈ graph → edge.target ∈ graph →
      closed edge = other edge) : graph.openEdges closed node = graph.openEdges other node := by
  apply List.countP_congr
  intro edge present
  simp only [Bool.and_eq_true, decide_eq_true_eq]
  apply and_congr_right
  rintro ⟨rfl, source⟩
  rw [same edge present source inside]

theorem openEdges_close_of_ne (apart : node ≠ edge.target) :
    graph.openEdges (close closed edge) node = graph.openEdges closed node := by
  apply List.countP_congr
  intro other _
  simp only [Bool.and_eq_true, decide_eq_true_eq]
  apply and_congr_right
  rintro ⟨rfl, _⟩
  have different : other ≠ edge := by
    rintro rfl
    exact apart rfl
  rw [close, decide_eq_false different, Bool.or_false]

/-- Closing an open edge leaves its target one open edge less. -/
theorem openEdges_close [LE α] [Std.IsLinearOrder α] [Std.LawfulOrderLT α]
    (present : edge ∈ graph.edges) (inside : edge.source ∈ graph) (isOpen : closed edge = false) :
    graph.openEdges (close closed edge) edge.target + 1 = graph.openEdges closed edge.target := by
  have distinct : graph.edges.toList.Nodup := graph.edges.ascending.imp Std.ne_of_lt
  have split := List.perm_cons_erase (OrderedSet.mem_toList.mpr present)
  have shut : close closed edge edge = true := by simp [close]
  rw [openEdges, openEdges, split.countP_eq, split.countP_eq, List.countP_cons_of_neg,
    List.countP_cons_of_pos]
  · congr 1
    apply List.countP_congr
    intro other member
    have different := (distinct.mem_erase_iff.mp member).1
    rw [close, decide_eq_false different, Bool.or_false]
  · simp [inside, isOpen]
  · simp [shut]

end Graph

namespace Countdown

open ProcessFlow.Graph

variable {α : Type} [LE α] [LT α] [DecidableLT α] [DecidableEq α] [Std.IsLinearOrder α]
  [Std.LawfulOrderLT α] {graph : Graph α} {closed other : Edge α → Bool} {gone : List α}
  {state : Countdown α} {node : α}

/-- The countdown stands where some edges are closed and some nodes have left, none of which an open
edge held back: it has the count of open edges of each node, and the others without any are ready. -/
structure Counts (graph : Graph α) (closed : Edge α → Bool) (gone : List α)
    (state : Countdown α) : Prop where
  held : ∀ node ∈ graph, state.held.get? node = some (graph.openEdges closed node)
  free : ∀ node ∈ gone, graph.openEdges closed node = 0
  ready : ∀ node, node ∈ state.ready ↔
    node ∈ graph ∧ node ∉ gone ∧ graph.openEdges closed node = 0
  ascending : state.ready.Pairwise (· < ·)

omit [LE α] [DecidableLT α] [Std.IsLinearOrder α] [Std.LawfulOrderLT α] in
/-- Edges that end outside the graph do not matter. -/
theorem Counts.congr (counts : Counts graph closed gone state) (inside : ∀ node ∈ gone, node ∈ graph)
    (same : ∀ edge ∈ graph.edges, edge.source ∈ graph → edge.target ∈ graph →
      closed edge = other edge) : Counts graph other gone state := by
  have equal (node : α) (member : node ∈ graph) :
      graph.openEdges closed node = graph.openEdges other node := openEdges_congr member same
  constructor
  · intro node member
    rw [counts.held node member, equal node member]
  · intro node left
    rw [← equal node (inside node left), counts.free node left]
  · intro node
    rw [counts.ready node]
    apply and_congr_right
    intro member
    rw [equal node member]
  · exact counts.ascending

/-- Taking an open edge away closes it. -/
theorem Counts.settle {edge : Edge α} (counts : Counts graph closed gone state)
    (present : edge ∈ graph.edges) (source : edge.source ∈ graph) (target : edge.target ∈ graph)
    (isOpen : closed edge = false) :
    Counts graph (close closed edge) gone (state.settle edge.target) := by
  have less := openEdges_close present source isOpen
  have elsewhere (node : α) (apart : node ≠ edge.target) :
      graph.openEdges (close closed edge) node = graph.openEdges closed node :=
    openEdges_close_of_ne apart
  -- The edge was open, so its target had not left and was not ready.
  have stays : edge.target ∉ gone := by
    intro left
    have none := counts.free edge.target left
    omega
  have waits : edge.target ∉ state.ready := by
    intro isReady
    have none := ((counts.ready edge.target).mp isReady).2.2
    omega
  have found := counts.held edge.target target
  rw [← less] at found
  rw [Countdown.settle, found]
  constructor
  · intro node member
    dsimp only
    rw [OrderedMap.get?_insert]
    split
    · rename_i same
      rw [same]
    · rename_i apart
      rw [counts.held node member, elsewhere node apart]
  · intro node left
    have apart : node ≠ edge.target := by
      rintro rfl
      exact stays left
    rw [elsewhere node apart, counts.free node left]
  · intro node
    by_cases same : node = edge.target
    · subst same
      dsimp only
      split
      · rename_i last
        simp [mem_placeReady, target, stays, last]
      · rename_i more
        simp [waits, more]
    · rw [elsewhere node same, ← counts.ready node]
      dsimp only
      split
      · rw [mem_placeReady]
        exact or_iff_right same
      · exact Iff.rfl
  · dsimp only
    split
    · exact pairwise_placeReady counts.ascending waits
    · exact counts.ascending

/-- Taking the edges of a node away closes them. -/
theorem Counts.foldl_settle {targets : List α} (counts : Counts graph closed gone state)
    (distinct : targets.Nodup) (joins : ∀ target ∈ targets, graph.Joins node target)
    (isOpen : ∀ target ∈ targets, closed ⟨node, target⟩ = false) :
    Counts graph (fun edge => closed edge || decide (edge.source = node ∧ edge.target ∈ targets)) gone
      (targets.foldl Countdown.settle state) := by
  induction targets generalizing closed state with
  | nil => simpa using counts
  | cons target rest ih =>
    obtain ⟨fresh, distinct⟩ := List.nodup_cons.mp distinct
    obtain ⟨⟨present, source, inside⟩, joinsRest⟩ := List.forall_mem_cons.mp joins
    obtain ⟨isOpenHere, isOpenRest⟩ := List.forall_mem_cons.mp isOpen
    have settled := counts.settle present source inside isOpenHere
    -- The targets are distinct, so closing one edge leaves the edges to the others open.
    have stillOpen : ∀ later ∈ rest, close closed ⟨node, target⟩ ⟨node, later⟩ = false := by
      intro later member
      have apart : later ≠ target := by
        rintro rfl
        exact fresh member
      simp [close, isOpenRest later member, apart]
    have all := ih settled distinct joinsRest stillOpen
    have same : (fun edge : Edge α => closed edge ||
        decide (edge.source = node ∧ edge.target ∈ target :: rest)) =
        fun edge => close closed ⟨node, target⟩ edge ||
          decide (edge.source = node ∧ edge.target ∈ rest) := by
      funext edge
      obtain ⟨source, target⟩ := edge
      by_cases here : source = node <;> simp [close, here, Bool.or_assoc]
    rw [List.foldl_cons, same]
    exact all

omit [DecidableLT α] [Std.IsLinearOrder α] in
/-- The least ready node counts as gone before its edges are taken away, while no count has changed
yet. -/
theorem Counts.remove {rest : List α} {held : OrderedMap α Nat}
    (counts : Counts graph (leaves gone) gone ⟨held, node :: rest⟩) :
    Counts graph (leaves gone) (node :: gone) ⟨held, rest⟩ := by
  obtain ⟨_, _, none⟩ := (counts.ready node).mp (List.mem_cons_self ..)
  obtain ⟨least, ascending⟩ := List.pairwise_cons.mp counts.ascending
  refine ⟨counts.held, List.forall_mem_cons.mpr ⟨none, counts.free⟩, ?_, ascending⟩
  intro other
  have ready := counts.ready other
  rw [List.mem_cons] at ready
  rw [List.mem_cons, not_or]
  constructor
  · intro isReady
    have apart : other ≠ node := (Std.ne_of_lt (least other isReady)).symm
    obtain ⟨member, left, zero⟩ := ready.mp (.inr isReady)
    exact ⟨member, ⟨apart, left⟩, zero⟩
  · rintro ⟨member, ⟨apart, left⟩, zero⟩
    exact (ready.mpr ⟨member, left, zero⟩).resolve_left apart

/-- When the least ready node leaves, its edges are taken away. -/
theorem Counts.leave {rest : List α} {held : OrderedMap α Nat}
    (inside : ∀ node ∈ gone, node ∈ graph)
    (counts : Counts graph (leaves gone) gone ⟨held, node :: rest⟩) :
    Counts graph (leaves (node :: gone)) (node :: gone)
      ((graph.successors node).foldl Countdown.settle ⟨held, rest⟩) := by
  obtain ⟨member, stays, _⟩ := (counts.ready node).mp (List.mem_cons_self ..)
  have distinct : (graph.successors node).Nodup :=
    (graph.successors_ascending node).imp Std.ne_of_lt
  have isOpen : ∀ target ∈ graph.successors node, leaves gone ⟨node, target⟩ = false :=
    fun _ _ => decide_eq_false stays
  have settled := counts.remove.foldl_settle distinct (fun _ => mem_successors.mp) isOpen
  refine settled.congr (List.forall_mem_cons.mpr ⟨member, inside⟩) ?_
  intro edge present source target
  by_cases same : edge.source = node
  · have joins : edge.target ∈ graph.successors node := by
      rw [mem_successors, ← same]
      exact ⟨present, source, target⟩
    simp [leaves, same, joins]
  · simp [leaves, same]

omit [DecidableLT α] [Std.IsLinearOrder α] in
/-- Before any node has left, every edge is open. -/
theorem counts_countdown (graph : Graph α) :
    Counts graph (leaves []) [] graph.countdown := by
  have degree (node : α) : graph.inDegree node = graph.openEdges (leaves []) node := by
    simp [inDegree, openEdges, leaves]
  constructor
  · intro node member
    rw [OrderedMap.get?_eq_some_iff, ← degree]
    exact List.mem_map.mpr ⟨node, member, rfl⟩
  · nofun
  · intro node
    simp [countdown, ← degree, Graph.mem_iff]
  · apply List.pairwise_map.mpr
    apply List.Pairwise.filter
    exact List.pairwise_map.mpr graph.nodes.ascending

end Countdown

namespace Graph

variable {α : Type} [LT α] [DecidableEq α] {graph : Graph α} {gone order : List α}

/-- After some nodes have left, the others leave in an order: each of them once, after the sources of
its edges, and those that are left over wait for one another. -/
structure Emits (graph : Graph α) (gone order : List α) : Prop where
  inside : ∀ node ∈ order, node ∈ graph ∧ node ∉ gone
  distinct : order.Nodup
  sources : ∀ source target, target ∈ order → graph.Joins source target →
    source ∈ gone ∨ [source, target].Sublist order
  stuck : ∀ node ∈ graph, node ∉ gone → node ∉ order →
    ∃ source, graph.Joins source node ∧ source ∉ gone ∧ source ∉ order

/-- A node without open edges leaves before those that follow. -/
theorem Emits.cons {node : α} (emits : graph.Emits (node :: gone) order) (member : node ∈ graph)
    (stays : node ∉ gone) (none : graph.openEdges (leaves gone) node = 0) :
    graph.Emits gone (node :: order) := by
  have fresh : node ∉ order := fun repeated =>
    (emits.inside node repeated).2 (List.mem_cons_self ..)
  constructor
  · refine List.forall_mem_cons.mpr ⟨⟨member, stays⟩, fun other later => ?_⟩
    obtain ⟨inside, left⟩ := emits.inside other later
    exact ⟨inside, fun old => left (List.mem_cons_of_mem _ old)⟩
  · exact List.nodup_cons.mpr ⟨fresh, emits.distinct⟩
  · intro source target isTarget joins
    rcases List.mem_cons.mp isTarget with rfl | later
    · have closed := openEdges_eq_zero_iff.mp none source joins.1 joins.2.1
      exact .inl (of_decide_eq_true closed)
    · rcases emits.sources source target later joins with left | after
      · rcases List.mem_cons.mp left with rfl | old
        · exact .inr (.cons_cons _ (List.singleton_sublist.mpr later))
        · exact .inl old
      · exact .inr (.cons _ after)
  · intro other inside old missing
    rw [List.mem_cons, not_or] at missing
    have left : other ∉ node :: gone := by
      rw [List.mem_cons, not_or]
      exact ⟨missing.1, old⟩
    obtain ⟨source, joins, sourceStays, sourceMissing⟩ := emits.stuck other inside left missing.2
    rw [List.mem_cons, not_or] at sourceStays
    refine ⟨source, joins, sourceStays.2, ?_⟩
    rw [List.mem_cons, not_or]
    exact ⟨sourceStays.1, sourceMissing⟩

variable [LE α] [DecidableLT α] [Std.IsLinearOrder α] [Std.LawfulOrderLT α]

/-- From wherever the countdown stands, nodes leave in such an order. -/
theorem emits_emit {state : Countdown α} (inside : ∀ node ∈ gone, node ∈ graph)
    (counts : Countdown.Counts graph (leaves gone) gone state) :
    graph.Emits gone (Countdown.emit graph.successors state) := by
  fun_induction Countdown.emit graph.successors state generalizing gone with
  | case1 state empty =>
    refine ⟨nofun, .nil, nofun, fun node member stays _ => ?_⟩
    have isReady := counts.ready node
    rw [empty] at isReady
    have waits : graph.openEdges (leaves gone) node ≠ 0 :=
      fun zero => nomatch isReady.mpr ⟨member, stays, zero⟩
    rw [Ne, openEdges_eq_zero_iff] at waits
    push Not at waits
    obtain ⟨source, present, isSource, isOpen⟩ := waits
    refine ⟨source, ⟨present, isSource, member⟩, ?_, nofun⟩
    simpa [leaves] using isOpen
  | case2 state node rest shape ih =>
    obtain ⟨held, ready⟩ := state
    obtain rfl : ready = node :: rest := shape
    obtain ⟨member, stays, none⟩ := (counts.ready node).mp (List.mem_cons_self ..)
    have emits := ih (List.forall_mem_cons.mpr ⟨member, inside⟩) (counts.leave inside)
    exact emits.cons member stays none

/-- All nodes that leave, in their order. -/
def departures (graph : Graph α) : List α := Countdown.emit graph.successors graph.countdown

theorem emits_departures (graph : Graph α) : graph.Emits [] graph.departures :=
  emits_emit nofun (Countdown.counts_countdown graph)

theorem topologicalSort_eq (graph : Graph α) : graph.topologicalSort =
    if graph.departures.length = graph.size then some graph.departures else none := by
  have adjacency : (fun node => graph.adjacency.getD node []) = graph.successors :=
    funext graph.getD_adjacency
  rw [topologicalSort, adjacency, departures]

/-- A topological order has every node once, and each after the sources of its edges. -/
theorem order_of_topologicalSort (sorted : graph.topologicalSort = some order) :
    order.Perm graph.nodes.toList ∧
      ∀ source target, graph.Joins source target → [source, target].Sublist order := by
  obtain ⟨inside, distinct, sources, _⟩ := graph.emits_departures
  rw [topologicalSort_eq] at sorted
  split at sorted
  · rename_i complete
    obtain rfl : graph.departures = order := Option.some.inj sorted
    have within : graph.departures.Subperm graph.nodes.toList :=
      List.subperm_of_subset distinct fun node member => (inside node member).1
    have all : graph.departures.Perm graph.nodes.toList :=
      within.perm_of_length_le (Nat.le_of_eq complete.symm)
    refine ⟨all, fun source target joins => ?_⟩
    have member : target ∈ graph.departures := all.mem_iff.mpr joins.2.2
    exact (sources source target member joins).resolve_left List.not_mem_nil
  · cases sorted

open Relation

omit [LE α] [DecidableLT α] [Std.IsLinearOrder α] [Std.LawfulOrderLT α] in
/-- Without a way from a node to itself, there is no endless way back from a node. -/
theorem wellFounded_of_acyclic (acyclic : ∀ node, ¬TransGen graph.Joins node node) :
    WellFounded fun source target : { node // node ∈ graph.nodes.toList } =>
      TransGen graph.Joins source.val target.val := by
  have transitive : IsTrans { node // node ∈ graph.nodes.toList }
      fun source target => TransGen graph.Joins source.val target.val := ⟨fun _ _ _ => .trans⟩
  have irreflexive : Std.Irrefl fun source target : { node // node ∈ graph.nodes.toList } =>
      TransGen graph.Joins source.val target.val := ⟨fun node => acyclic node.val⟩
  exact Finite.wellFounded_of_trans_of_irrefl _

/-- Without a way from a node to itself, every node leaves. -/
theorem mem_departures (acyclic : ∀ node, ¬TransGen graph.Joins node node) {node : α}
    (member : node ∈ graph) : node ∈ graph.departures := by
  have every (node : { node // node ∈ graph.nodes.toList }) : node.val ∈ graph.departures := by
    induction node using (wellFounded_of_acyclic acyclic).induction with
    | _ node earlier =>
      by_contra missing
      obtain ⟨source, joins, _, sourceMissing⟩ :=
        graph.emits_departures.stuck node.val node.property List.not_mem_nil missing
      exact sourceMissing (earlier ⟨source, joins.2.1⟩ (.single joins))
  exact every ⟨node, member⟩

/-- A graph without a way from a node to itself has a topological order. -/
theorem exists_topologicalSort (acyclic : ∀ node, ¬TransGen graph.Joins node node) :
    ∃ order, graph.topologicalSort = some order := by
  obtain ⟨inside, distinct, _⟩ := graph.emits_departures
  have members (node : α) : node ∈ graph.departures ↔ node ∈ graph.nodes.toList :=
    ⟨fun member => (inside node member).1, mem_departures acyclic⟩
  have all : graph.departures.Perm graph.nodes.toList :=
    (List.perm_ext_iff_of_nodup distinct (graph.nodes.ascending.imp Std.ne_of_lt)).mpr members
  have complete : graph.departures.length = graph.size := all.length_eq
  rw [topologicalSort_eq, if_pos complete]
  exact ⟨_, rfl⟩

end Graph

end ProcessFlow
