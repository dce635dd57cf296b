import ProcessFlow.Graph.Basic

/-! # Topological order

Nodes leave one after another, each as soon as no edge from a remaining node ends in it. Of the
nodes that are ready together the least leaves first, so the order is fixed by the graph. A cycle
keeps its nodes from ever being ready.
-/

namespace ProcessFlow

/-- For each node the edges that still hold it back, and the nodes that nothing holds back, in
ascending order. -/
structure Countdown (α : Type) [LT α] where
  held : OrderedMap α Nat
  ready : List α

namespace Countdown

variable {α : Type} [LT α]

/-- Put a node into an ascending list. -/
def placeReady [DecidableLT α] (node : α) : List α → List α
  | [] => [node]
  | head :: rest => if head < node then head :: placeReady node rest else node :: head :: rest

@[simp] theorem length_placeReady [DecidableLT α] (node : α) (list : List α) :
    (placeReady node list).length = list.length + 1 := by
  induction list with
  | nil => rfl
  | cons head rest ih =>
    simp only [placeReady]
    split
    · simp [ih]
    · rfl

def edgesLeft (held : OrderedMap α Nat) : Nat := held.values.foldr (· + ·) 0

/-- The edges still to be taken away and the nodes still to leave. -/
def weight (state : Countdown α) : Nat := edgesLeft state.held + state.ready.length

variable [LE α] [DecidableLT α] [DecidableEq α] [Std.IsLinearOrder α] [Std.LawfulOrderLT α]

/-- Take away one edge that holds a node back; with the last one the node becomes ready. -/
def settle (state : Countdown α) (node : α) : Countdown α :=
  match state.held.get? node with
  | none | some 0 => state
  | some (count + 1) =>
    ⟨state.held.insert node count,
      if count = 0 then placeReady node state.ready else state.ready⟩

/-- Lowering one count by one leaves one edge less. -/
theorem edgesLeft_insert {held : OrderedMap α Nat} {node : α} {count : Nat}
    (found : held.get? node = some (count + 1)) :
    edgesLeft (held.insert node count) + 1 = edgesLeft held := by
  obtain ⟨entries, ascending⟩ := held
  simp only [edgesLeft, OrderedMap.get?, OrderedMap.insert, OrderedMap.values] at found ⊢
  induction entries with
  | nil => simp at found
  | cons head rest ih =>
    obtain ⟨least, tail⟩ := List.pairwise_cons.mp ascending
    by_cases same : head.1 = node
    · simp only [List.find?_cons, same, decide_true, Option.map_some, Option.some.injEq] at found
      have here : OrderedMap.placeEntry node count (head :: rest) = (node, count) :: rest := by
        simp only [OrderedMap.placeEntry, same, if_neg (Std.lt_irrefl (a := node))]
      simp only [here, List.map_cons, List.foldr_cons, found]
      omega
    · simp only [List.find?_cons, same, decide_false] at found
      have later : head.1 < node := by
        obtain ⟨entry, lookup, _⟩ := Option.map_eq_some_iff.mp found
        have member := List.mem_of_find?_eq_some lookup
        have key : entry.1 = node := by simpa using List.find?_some lookup
        exact key ▸ least entry member
      have here : OrderedMap.placeEntry node count (head :: rest) =
          head :: OrderedMap.placeEntry node count rest := by
        rw [OrderedMap.placeEntry, if_neg (Std.not_gt_of_lt later), if_pos later]
      have step := ih tail found
      simp only [here, List.map_cons, List.foldr_cons]
      omega

/-- An edge taken away is exchanged for at most one node that becomes ready. -/
theorem weight_settle_le (state : Countdown α) (node : α) :
    (state.settle node).weight ≤ state.weight := by
  unfold settle
  split
  · exact Nat.le_refl _
  · exact Nat.le_refl _
  · rename_i count found
    have sum := edgesLeft_insert found
    simp only [weight]
    split
    · simp only [length_placeReady]
      omega
    · omega

theorem weight_foldl_settle_le (nodes : List α) (state : Countdown α) :
    (nodes.foldl settle state).weight ≤ state.weight := by
  induction nodes generalizing state with
  | nil => exact Nat.le_refl _
  | cons head rest ih => exact Nat.le_trans (ih _) (weight_settle_le state head)

/-- Let the ready nodes leave, the least first, taking away the edges of each. -/
def emit (next : α → List α) (state : Countdown α) : List α :=
  match _shape : state.ready with
  | [] => []
  | node :: rest => node :: emit next ((next node).foldl settle { state with ready := rest })
termination_by state.weight
decreasing_by
  apply Nat.lt_of_le_of_lt (weight_foldl_settle_le _ _)
  simp [weight, _shape]

end Countdown

namespace Graph

variable {α : Type} [LT α] [DecidableEq α]

def inDegree (graph : Graph α) (node : α) : Nat :=
  graph.edges.toList.countP fun edge => edge.target = node && decide (edge.source ∈ graph)

/-- The countdown before any node has left. -/
def countdown (graph : Graph α) : Countdown α :=
  let held : OrderedMap α Nat :=
    ⟨graph.nodes.toList.map fun node => (node, graph.inDegree node),
      List.pairwise_map.mpr graph.nodes.ascending⟩
  ⟨held, (held.entries.filter fun entry => entry.2 = 0).map Prod.fst⟩

variable [LE α] [DecidableLT α] [Std.IsLinearOrder α] [Std.LawfulOrderLT α]

/-- All nodes, each before the nodes that its edges lead to, or nothing when a cycle keeps some of
them back. -/
def topologicalSort (graph : Graph α) : Option (List α) :=
  let adjacency := graph.adjacency
  let order := Countdown.emit (fun node => adjacency.getD node []) graph.countdown
  if order.length = graph.size then some order else none

end Graph

end ProcessFlow
