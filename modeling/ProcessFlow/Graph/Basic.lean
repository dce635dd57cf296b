import ProcessFlow.Collection.OrderedMap
import ProcessFlow.Collection.OrderedSet

/-! # Directed graphs over ordered nodes

A graph is a set of nodes and a set of edges. An edge may name nodes that are not in the graph;
such an edge dangles, and the walks, cycles and orders of the graph pass over it. All results come
in the order of the nodes, so they depend on the graph alone.
-/

namespace ProcessFlow

/-- A step from one node to another. -/
structure Edge (α : Type) where
  source : α
  target : α
deriving DecidableEq

namespace Edge

variable {α : Type}

instance [LT α] [DecidableEq α] : LT (Edge α) where
  lt left right := left.source < right.source ∨
    left.source = right.source ∧ left.target < right.target

instance [LT α] [LE α] [DecidableEq α] : LE (Edge α) where
  le left right := left.source < right.source ∨
    left.source = right.source ∧ left.target ≤ right.target

instance [LT α] [DecidableLT α] [DecidableEq α] : DecidableLT (Edge α) := fun left right =>
  inferInstanceAs (Decidable (left.source < right.source ∨
    left.source = right.source ∧ left.target < right.target))

theorem lt_iff [LT α] [DecidableEq α] {left right : Edge α} : left < right ↔
    left.source < right.source ∨ left.source = right.source ∧ left.target < right.target := Iff.rfl

theorem le_iff [LT α] [LE α] [DecidableEq α] {left right : Edge α} : left ≤ right ↔
    left.source < right.source ∨ left.source = right.source ∧ left.target ≤ right.target := Iff.rfl

variable [LE α] [LT α] [DecidableEq α] [Std.IsLinearOrder α] [Std.LawfulOrderLT α]

instance : Std.IsLinearOrder (Edge α) :=
  isLinearOrder_of_keys le_iff fun {left right} sources targets => by
    cases left
    cases right
    cases sources
    cases targets
    rfl

instance : Std.LawfulOrderLT (Edge α) := lawfulOrderLT_of_keys le_iff lt_iff

end Edge

/-- A set of nodes and a set of edges, which need not join nodes of the graph. -/
structure Graph (α : Type) [LT α] [DecidableEq α] where
  nodes : OrderedSet α
  edges : OrderedSet (Edge α)

namespace Graph

variable {α : Type} [LT α] [DecidableEq α]

instance : Membership α (Graph α) := ⟨fun graph node => node ∈ graph.nodes⟩

instance (node : α) (graph : Graph α) : Decidable (node ∈ graph) :=
  inferInstanceAs (Decidable (node ∈ graph.nodes))

theorem mem_iff {graph : Graph α} {node : α} : node ∈ graph ↔ node ∈ graph.nodes := Iff.rfl

instance : DecidableEq (Graph α) := fun left right =>
  match decEq left.nodes right.nodes, decEq left.edges right.edges with
  | isTrue nodes, isTrue edges => isTrue (by cases left; cases right; cases nodes; cases edges; rfl)
  | isFalse different, _ => isFalse (fun same => different (congrArg Graph.nodes same))
  | _, isFalse different => isFalse (fun same => different (congrArg Graph.edges same))

def empty : Graph α := ⟨∅, ∅⟩

def size (graph : Graph α) : Nat := graph.nodes.size

def isEmpty (graph : Graph α) : Bool := graph.nodes.isEmpty

/-- An edge between two nodes of the graph. -/
def Joins (graph : Graph α) (source target : α) : Prop :=
  ⟨source, target⟩ ∈ graph.edges ∧ source ∈ graph ∧ target ∈ graph

instance (graph : Graph α) (source target : α) : Decidable (graph.Joins source target) :=
  inferInstanceAs (Decidable (_ ∧ _ ∧ _))

/-- The nodes that one edge leads to from a node of the graph, in ascending order. -/
def successors (graph : Graph α) (node : α) : List α :=
  if node ∈ graph then
    ((graph.edges.toList.filter (·.source = node)).map Edge.target).filter (· ∈ graph)
  else []

theorem mem_successors {graph : Graph α} {node next : α} :
    next ∈ graph.successors node ↔ graph.Joins node next := by
  unfold successors Joins
  split
  · rename_i member
    simp only [List.mem_filter, List.mem_map, decide_eq_true_eq]
    constructor
    · rintro ⟨⟨⟨source, target⟩, ⟨present, rfl⟩, rfl⟩, inside⟩
      exact ⟨present, member, inside⟩
    · rintro ⟨present, _, inside⟩
      exact ⟨⟨_, ⟨present, rfl⟩, rfl⟩, inside⟩
  · rename_i outside
    simp [outside]

/-- The successors of every node of the graph. -/
def adjacency (graph : Graph α) : OrderedMap α (List α) :=
  ⟨graph.nodes.toList.map fun node => (node, graph.successors node),
    List.pairwise_map.mpr graph.nodes.ascending⟩

/-- The nodes that no edge ends in; an edge from outside the graph counts. -/
def minimals (graph : Graph α) : OrderedSet α :=
  graph.nodes.filter fun node => !graph.edges.toList.any (·.target = node)

/-- The nodes that no edge leaves; an edge to outside the graph counts. -/
def maximals (graph : Graph α) : OrderedSet α :=
  graph.nodes.filter fun node => !graph.edges.toList.any (·.source = node)

variable [LE α] [DecidableLT α] [Std.IsLinearOrder α] [Std.LawfulOrderLT α]

omit [DecidableLT α] [Std.IsLinearOrder α] in
/-- Looking a node up in the adjacency table gives its successors. -/
theorem getD_adjacency (graph : Graph α) (node : α) :
    graph.adjacency.getD node [] = graph.successors node := by
  rw [adjacency, OrderedMap.getD_of_keys graph.nodes.ascending]
  split
  · rfl
  · rename_i outside
    exact (if_neg outside).symm

omit [DecidableLT α] [Std.IsLinearOrder α] in
theorem successors_ascending (graph : Graph α) (node : α) :
    (graph.successors node).Pairwise (· < ·) := by
  unfold successors
  split
  · refine List.Pairwise.filter _ (List.pairwise_map.mpr (List.pairwise_filter.mpr ?_))
    refine graph.edges.ascending.imp fun {left right} less sourceLeft sourceRight => ?_
    rw [decide_eq_true_eq] at sourceLeft sourceRight
    rcases Edge.lt_iff.mp less with lower | ⟨_, lower⟩
    · rw [sourceLeft, sourceRight] at lower
      exact absurd lower (Std.lt_irrefl)
    · exact lower
  · exact .nil

def ofLists (nodes : List α) (edges : List (Edge α)) : Graph α :=
  ⟨.ofList nodes, .ofList edges⟩

def addNode (graph : Graph α) (node : α) : Graph α := { graph with nodes := graph.nodes.insert node }

/-- Add an edge, and no node. -/
def addEdge (graph : Graph α) (edge : Edge α) : Graph α :=
  { graph with edges := graph.edges.insert edge }

/-- The part of the graph that lies within a set of nodes. -/
def induced (graph : Graph α) (keep : OrderedSet α) : Graph α :=
  ⟨graph.nodes.filter (· ∈ keep),
    graph.edges.filter fun edge => edge.source ∈ keep && edge.target ∈ keep⟩

end Graph

end ProcessFlow
