import ProcessFlow.Graph.Basic

/-! # Walking a graph

`spread` is the one search behind descendants and components: it takes nodes out of a set of
untouched nodes, so it ends when no pending node is untouched. A look for one target stops at the
target instead.
-/

namespace ProcessFlow

namespace Graph

variable {α : Type} [LT α] [DecidableEq α]

/-- Take out of the untouched nodes every one that the pending nodes lead to through untouched
nodes, and return the nodes that stay untouched. -/
def spread (next : α → List α) (untouched : OrderedSet α) : List α → OrderedSet α
  | [] => untouched
  | current :: pending =>
    if current ∈ untouched then spread next (untouched.erase current) (next current ++ pending)
    else spread next untouched pending
termination_by pending => (untouched.size, pending.length)
decreasing_by
  · exact .left _ _ (OrderedSet.size_erase_lt ‹_›)
  · exact .right _ (by simp)

/-- Look for a target among the nodes that the pending nodes lead to. -/
def finds (next : α → List α) (target : α) (untouched : OrderedSet α) : List α → Bool
  | [] => false
  | current :: pending =>
    if current = target then true
    else if current ∈ untouched then
      finds next target (untouched.erase current) (next current ++ pending)
    else finds next target untouched pending
termination_by pending => (untouched.size, pending.length)
decreasing_by
  · exact .left _ _ (OrderedSet.size_erase_lt ‹_›)
  · exact .right _ (by simp)

/-- The nodes that one or more edges lead to. The node itself is among them only when it lies on a
cycle. -/
def descendants (graph : Graph α) (node : α) : OrderedSet α :=
  let adjacency := graph.adjacency
  let next := fun node => adjacency.getD node []
  let untouched := spread next graph.nodes (next node)
  graph.nodes.filter (· ∉ untouched)

/-- Whether edges lead from one node of the graph to another. A node of the graph leads to
itself. -/
def isReachable (graph : Graph α) (source target : α) : Bool :=
  let adjacency := graph.adjacency
  decide (source ∈ graph) && decide (target ∈ graph) &&
    finds (fun node => adjacency.getD node []) target graph.nodes [source]

/-- The far ends of the edges at a node, of either direction. -/
def farEnds (graph : Graph α) (node : α) : List α :=
  graph.edges.toList.filterMap fun edge =>
    if edge.source = node then some edge.target
    else if edge.target = node then some edge.source
    else none

/-- The nodes of the graph that an edge of either direction joins to a node. -/
def neighbours (graph : Graph α) (node : α) : List α :=
  let ends := graph.farEnds node
  graph.nodes.toList.filter (· ∈ ends)

theorem mem_neighbours {graph : Graph α} {node other : α} : other ∈ graph.neighbours node ↔
    other ∈ graph ∧ (⟨node, other⟩ ∈ graph.edges ∨ ⟨other, node⟩ ∈ graph.edges) := by
  simp only [neighbours, farEnds, List.mem_filter, List.mem_filterMap, decide_eq_true_eq]
  refine and_congr Iff.rfl ⟨?_, ?_⟩
  · rintro ⟨⟨source, target⟩, present, chosen⟩
    dsimp only at chosen
    split at chosen
    · rename_i same
      cases same
      cases chosen
      exact .inl present
    · split at chosen
      · rename_i same
        cases same
        cases chosen
        exact .inr present
      · cases chosen
  · rintro (present | present)
    · exact ⟨_, present, by simp⟩
    · by_cases same : other = node
      · exact ⟨_, present, by simp [same]⟩
      · exact ⟨_, present, by simp [same]⟩

/-- Cut the untouched nodes into the parts that hang together, one for each root not yet placed. -/
def parts (next : α → List α) (untouched : OrderedSet α) : List α → List (OrderedSet α)
  | [] => []
  | root :: roots =>
    if root ∈ untouched then
      let rest := spread next untouched [root]
      untouched.filter (· ∉ rest) :: parts next rest roots
    else parts next untouched roots

/-- The weakly connected components, in the order of their least nodes. -/
def components (graph : Graph α) : List (OrderedSet α) :=
  let adjacency : OrderedMap α (List α) :=
    ⟨graph.nodes.toList.map fun node => (node, graph.neighbours node),
      List.pairwise_map.mpr graph.nodes.ascending⟩
  parts (fun node => adjacency.getD node []) graph.nodes graph.nodes.toList

theorem spread_nil (next : α → List α) (untouched : OrderedSet α) :
    spread next untouched [] = untouched := by
  rw [spread]

theorem spread_cons_of_mem {next : α → List α} {untouched : OrderedSet α} {current : α}
    {pending : List α} (member : current ∈ untouched) :
    spread next untouched (current :: pending) =
      spread next (untouched.erase current) (next current ++ pending) := by
  rw [spread, if_pos member]

theorem spread_cons_of_not_mem {next : α → List α} {untouched : OrderedSet α} {current : α}
    {pending : List α} (touched : current ∉ untouched) :
    spread next untouched (current :: pending) = spread next untouched pending := by
  rw [spread, if_neg touched]

/-- The search only takes nodes out. -/
theorem mem_of_mem_spread {next : α → List α} {untouched : OrderedSet α} {pending : List α}
    {node : α} (member : node ∈ spread next untouched pending) : node ∈ untouched := by
  fun_induction spread next untouched pending with
  | case1 => exact member
  | case2 untouched current pending present ih => exact (OrderedSet.mem_erase.mp (ih member)).1
  | case3 untouched current pending absent ih => exact ih member

end Graph

end ProcessFlow
