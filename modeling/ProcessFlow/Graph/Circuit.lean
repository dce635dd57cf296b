import ProcessFlow.Graph.Basic

/-! # Enumeration of simple cycles

Cycles are found from each node in turn, walking only through nodes that are not less than it, so
each cycle is met once, from its least node. The search blocks a node while it is on the path, and
keeps it blocked afterwards when no way led back to the start: then the node waits for its
successors, and the first of them that is released releases it too.
-/

namespace ProcessFlow

/-- What the search from one start remembers: the nodes it must not enter, for each node the nodes
that wait for its release, and the cycles met so far, latest first. -/
structure CircuitSearch (α : Type) [LT α] where
  blocked : OrderedSet α
  waiting : OrderedMap α (OrderedSet α)
  found : List (List α)

namespace CircuitSearch

variable {α : Type} [LT α] [DecidableEq α]

def initial : CircuitSearch α := ⟨∅, ∅, []⟩

def waitersOf (search : CircuitSearch α) (node : α) : List α :=
  ((search.waiting.get? node).map OrderedSet.toList).getD []

/-- Let the search enter a node again; nothing waits for it any more. -/
def release (search : CircuitSearch α) (node : α) : CircuitSearch α :=
  { search with blocked := search.blocked.erase node, waiting := search.waiting.erase node }

/-- Release the blocked ones of the pending nodes, and in turn the nodes that wait for them. -/
def cascade (search : CircuitSearch α) : List α → CircuitSearch α
  | [] => search
  | node :: pending =>
    if node ∈ search.blocked then
      cascade (search.release node) (search.waitersOf node ++ pending)
    else cascade search pending
termination_by pending => (search.blocked.size, pending.length)
decreasing_by
  · exact .left _ _ (OrderedSet.size_erase_lt ‹_›)
  · exact .right _ (by simp)

/-- Release a node and everything that waits for it. -/
def unblock (search : CircuitSearch α) (node : α) : CircuitSearch α :=
  (search.release node).cascade (search.waitersOf node)

variable [LE α] [DecidableLT α] [Std.IsLinearOrder α] [Std.LawfulOrderLT α]

/-- Block a node as it joins the path. -/
def enter (search : CircuitSearch α) (node : α) : CircuitSearch α :=
  { search with blocked := search.blocked.insert node }

/-- Let a node wait for each of the given nodes. -/
def defer (search : CircuitSearch α) (node : α) (successors : List α) : CircuitSearch α :=
  { search with
    waiting := successors.foldl
      (fun waiting next => waiting.insert next (((waiting.get? next).getD ∅).insert node))
      search.waiting }

/-- Look at one successor of the last node of a path: the start closes a cycle, a blocked node is
passed over, and any other node is searched in its turn. -/
def visit (start : α) (path : List α)
    (descend : α → CircuitSearch α → Bool × CircuitSearch α)
    (state : Bool × CircuitSearch α) (next : α) : Bool × CircuitSearch α :=
  if next = start then (true, { state.2 with found := path :: state.2.found })
  else if next ∈ state.2.blocked then state
  else
    let inner := descend next state.2
    (state.1 || inner.1, inner.2)

/-- Extend a path by a node and search on from there. The answer says whether a cycle was closed
through the node. The path may grow by at most `depth` nodes. -/
def circuit (next : α → List α) (start : α) :
    Nat → List α → α → CircuitSearch α → Bool × CircuitSearch α
  | 0, _, _, search => (false, search)
  | depth + 1, path, node, search =>
    let path := path ++ [node]
    let searched := (next node).foldl (visit start path (circuit next start depth path))
      (false, search.enter node)
    if searched.1 then (true, searched.2.unblock node)
    else (false, searched.2.defer node (next node))

end CircuitSearch

namespace Graph

variable {α : Type} [LT α] [DecidableLT α] [DecidableEq α]

/-- Whether one list of nodes comes before another or is the same, comparing node by node. -/
def lexicallyBefore : List α → List α → Bool
  | [], _ => true
  | _ :: _, [] => false
  | left :: lefts, right :: rights =>
    if left < right then true else if right < left then false else lexicallyBefore lefts rights

/-- Whether one cycle is listed before another: shorter ones first, then node by node. -/
def listedBefore (left right : List α) : Bool :=
  left.length < right.length || (left.length == right.length && lexicallyBefore left right)

variable [LE α] [Std.IsLinearOrder α] [Std.LawfulOrderLT α]

/-- The cycles whose least node is the start, found through nodes that are not less than it. -/
def cyclesFrom (successors : α → List α) (bound : Nat) (start : α) : List (List α) :=
  (CircuitSearch.circuit (fun node => (successors node).filter fun next => ¬ next < start) start
    bound [] start .initial).2.found

/-- Every simple cycle once, from its least node; short cycles first, then node by node. A path
holds no node twice, so it has at most as many nodes as the graph. -/
def cycles (graph : Graph α) : List (List α) :=
  let adjacency := graph.adjacency
  (graph.nodes.toList.flatMap (cyclesFrom (fun node => adjacency.getD node []) graph.size)).mergeSort
    listedBefore

end Graph

end ProcessFlow
