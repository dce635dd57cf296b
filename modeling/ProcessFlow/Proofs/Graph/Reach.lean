import Mathlib.Logic.Relation
import ProcessFlow.Graph.Reach

/-! # What a walk reaches

The search takes out of the untouched nodes exactly what the pending nodes lead to: it takes each
pending node, it takes whatever a node that it takes leads to, and it takes nothing else. So the
descendants of a node are the nodes that one or more edges of the graph lead to. The look for one
target, which stops at the target, answers as the search that goes on to the end would. An edge to a
node that other edges lead to already is redundant: it adds no descendants.
-/

namespace ProcessFlow

namespace Graph

open Relation

variable {α : Type} [LT α] [DecidableEq α] {next : α → List α} {untouched : OrderedSet α}
  {pending : List α} {node other source target : α}

/-- Steps lead from one node to another; none have to. -/
abbrev Leads (next : α → List α) : α → α → Prop :=
  ReflTransGen fun source target => target ∈ next source

/-- What is pending is taken. -/
theorem not_mem_spread_of_mem (member : node ∈ pending) : node ∉ spread next untouched pending := by
  fun_induction spread next untouched pending with
  | case1 => cases member
  | case2 untouched current pending present ih =>
    rcases List.mem_cons.mp member with rfl | later
    · intro kept
      exact (OrderedSet.mem_erase.mp (mem_of_mem_spread kept)).2 rfl
    · exact ih (List.mem_append_right _ later)
  | case3 untouched current pending absent ih =>
    rcases List.mem_cons.mp member with rfl | later
    · exact fun kept => absent (mem_of_mem_spread kept)
    · exact ih later

/-- What a taken node leads to is taken as well. -/
theorem not_mem_spread_of_next (present : node ∈ untouched)
    (taken : node ∉ spread next untouched pending) (leads : other ∈ next node) :
    other ∉ spread next untouched pending := by
  fun_induction spread next untouched pending with
  | case1 => exact absurd present taken
  | case2 untouched current pending inside ih =>
    by_cases same : node = current
    · subst same
      exact not_mem_spread_of_mem (List.mem_append_left _ leads)
    · exact ih (OrderedSet.mem_erase.mpr ⟨present, same⟩) taken
  | case3 untouched current pending absent ih => exact ih present taken

/-- Whatever is taken, some untouched pending node leads to. -/
theorem exists_pending_of_not_mem_spread (present : node ∈ untouched)
    (taken : node ∉ spread next untouched pending) :
    ∃ root ∈ pending, root ∈ untouched ∧ Leads next root node := by
  fun_induction spread next untouched pending with
  | case1 => exact absurd present taken
  | case2 untouched current pending inside ih =>
    by_cases same : node = current
    · subst same
      exact ⟨node, List.mem_cons_self .., inside, .refl⟩
    · obtain ⟨root, member, rest, leads⟩ := ih (OrderedSet.mem_erase.mpr ⟨present, same⟩) taken
      rcases List.mem_append.mp member with near | later
      · exact ⟨current, List.mem_cons_self .., inside, .head near leads⟩
      · exact ⟨root, List.mem_cons_of_mem _ later, (OrderedSet.mem_erase.mp rest).1, leads⟩
  | case3 untouched current pending absent ih =>
    obtain ⟨root, member, inside, leads⟩ := ih present taken
    exact ⟨root, List.mem_cons_of_mem _ member, inside, leads⟩

/-- If no node leads out of the untouched nodes, the search takes what the pending ones among them
lead to. -/
theorem taken_iff (closed : ∀ source ∈ untouched, ∀ target ∈ next source, target ∈ untouched) :
    node ∈ untouched ∧ node ∉ spread next untouched pending ↔
      ∃ root ∈ pending, root ∈ untouched ∧ Leads next root node := by
  constructor
  · rintro ⟨present, taken⟩
    exact exists_pending_of_not_mem_spread present taken
  · rintro ⟨root, member, inside, leads⟩
    induction leads with
    | refl => exact ⟨inside, not_mem_spread_of_mem member⟩
    | tail _ step ih => exact ⟨closed _ ih.1 _ step, not_mem_spread_of_next ih.1 ih.2 step⟩

/-- From one root, the search takes what the root leads to. -/
theorem taken_iff_leads (closed : ∀ source ∈ untouched, ∀ target ∈ next source, target ∈ untouched)
    {root : α} (present : root ∈ untouched) :
    node ∈ untouched ∧ node ∉ spread next untouched [root] ↔ Leads next root node := by
  rw [taken_iff closed]
  simp only [List.mem_singleton, exists_eq_left]
  exact and_iff_right present

/-- A look for a target finds it exactly if the target is pending, or a node that leads to it is taken
by the search that goes on to the end. -/
theorem finds_iff_spread : finds next target untouched pending = true ↔
    target ∈ pending ∨
      ∃ node ∈ untouched, node ∉ spread next untouched pending ∧ target ∈ next node := by
  fun_induction finds next target untouched pending with
  | case1 =>
    rw [spread_nil]
    constructor
    · nofun
    · rintro (pending | ⟨node, present, taken, _⟩)
      · cases pending
      · exact absurd present taken
  | case2 untouched pending => exact iff_of_true rfl (.inl (List.mem_cons_self ..))
  | case3 untouched current pending other inside ih =>
    rw [ih, spread_cons_of_mem inside, List.mem_append, List.mem_cons, or_assoc]
    have taken : current ∉ spread next (untouched.erase current) (next current ++ pending) :=
      fun kept => (OrderedSet.mem_erase.mp (mem_of_mem_spread kept)).2 rfl
    constructor
    · rintro (near | later | ⟨node, present, takenNode, leads⟩)
      · exact .inr ⟨current, inside, taken, near⟩
      · exact .inl (.inr later)
      · exact .inr ⟨node, (OrderedSet.mem_erase.mp present).1, takenNode, leads⟩
    · rintro ((same | later) | ⟨node, present, takenNode, leads⟩)
      · exact absurd same.symm other
      · exact .inr (.inl later)
      · by_cases same : node = current
        · exact .inl (same ▸ leads)
        · exact .inr (.inr ⟨node, OrderedSet.mem_erase.mpr ⟨present, same⟩, takenNode, leads⟩)
  | case4 untouched current pending other absent ih =>
    rw [ih, spread_cons_of_not_mem absent, List.mem_cons, or_iff_right (Ne.symm other)]

variable [LE α] [Std.LawfulOrderLT α] {graph : Graph α}

/-- The look-up of a node in the table of successors finds the nodes that it is joined to. -/
theorem mem_getD_adjacency : target ∈ graph.adjacency.getD source [] ↔ graph.Joins source target := by
  rw [getD_adjacency, mem_successors]

theorem leads_adjacency : Leads (fun node => graph.adjacency.getD node []) = ReflTransGen graph.Joins := by
  simp only [Leads, mem_getD_adjacency]

/-- No edge of the graph leads out of it. -/
theorem closed_nodes (graph : Graph α) : ∀ source ∈ graph.nodes, ∀ target ∈ graph.adjacency.getD source [],
    target ∈ graph.nodes := fun _ _ _ step => (mem_getD_adjacency.mp step).2.2

/-- The descendants of a node are what one or more edges between nodes of the graph lead to. -/
theorem mem_descendants : other ∈ graph.descendants node ↔ TransGen graph.Joins node other := by
  rw [descendants, OrderedSet.mem_filter, decide_eq_true_eq, TransGen.head'_iff, taken_iff graph.closed_nodes]
  simp only [mem_getD_adjacency, leads_adjacency]
  exact exists_congr fun root => and_congr_right fun joins => and_iff_right joins.2.2

/-- One node can be reached from another exactly if both are nodes of the graph, and they are the
same or one or more edges lead from the one to the other. -/
theorem isReachable_iff : graph.isReachable source target = true ↔
    source ∈ graph ∧ target ∈ graph ∧ (source = target ∨ TransGen graph.Joins source target) := by
  rw [isReachable, Bool.and_eq_true, Bool.and_eq_true, decide_eq_true_eq, decide_eq_true_eq, and_assoc,
    finds_iff_spread, List.mem_singleton, @eq_comm _ target, TransGen.tail'_iff]
  apply and_congr_right
  intro inside
  have taken (node : α) : (node ∈ graph.nodes ∧
      node ∉ spread (fun node => graph.adjacency.getD node []) graph.nodes [source]) ↔
        ReflTransGen graph.Joins source node := by
    rw [taken_iff_leads graph.closed_nodes inside, leads_adjacency]
  simp only [← and_assoc, taken, mem_getD_adjacency]

theorem descendants_congr {left right : Graph α} (reach : TransGen left.Joins = TransGen right.Joins)
    (node : α) : left.descendants node = right.descendants node := by
  ext other
  rw [mem_descendants, mem_descendants, reach]

variable [DecidableLT α] [Std.IsLinearOrder α]

/-- The descendants of a node are its successors and their descendants. -/
theorem descendants_eq (graph : Graph α) (node : α) : graph.descendants node = .ofList
    ((graph.successors node).flatMap fun next => next :: (graph.descendants next).toList) := by
  ext other
  rw [mem_descendants, TransGen.head'_iff]
  simp only [OrderedSet.mem_ofList, List.mem_flatMap, List.mem_cons, OrderedSet.mem_toList,
    mem_successors, mem_descendants, reflTransGen_iff_eq_or_transGen]

/-- The descendants of a node are what one or more edges between nodes of the graph lead to, so that a
node outside the graph has none; they are its successors and the descendants of these. One node can be
reached from another exactly if both are nodes of the graph, and they are the same or the one is among
the descendants of the other. -/
theorem reach_exact (graph : Graph α) (source target : α) :
    (target ∈ graph.descendants source ↔ TransGen graph.Joins source target) ∧
    (source ∉ graph → graph.descendants source = ∅) ∧
    (graph.isReachable source target = true ↔
      source ∈ graph ∧ target ∈ graph ∧ (source = target ∨ target ∈ graph.descendants source)) ∧
    graph.descendants source = .ofList
      ((graph.successors source).flatMap fun next => next :: (graph.descendants next).toList) := by
  refine ⟨mem_descendants, fun outside => ?_, ?_, graph.descendants_eq source⟩
  · ext other
    rw [mem_descendants, TransGen.head'_iff]
    exact iff_of_false (fun ⟨_, joins, _⟩ => outside joins.2.1) OrderedSet.not_mem_empty
  · rw [isReachable_iff, mem_descendants]

/-- A cycle that is entered from outside it, and a way on through a node that is not in the graph. -/
def detour : Graph Nat := .ofLists [1, 2, 3, 5] [⟨1, 2⟩, ⟨2, 3⟩, ⟨3, 2⟩, ⟨3, 4⟩, ⟨4, 5⟩]

/-- The only edge to five comes from a node outside the graph, so nothing leads there. -/
theorem reach_exact_detour :
    TransGen detour.Joins 1 3 ∧ 3 ∈ detour.descendants 1 ∧ 2 ∈ detour.descendants 2 ∧
      5 ∉ detour.descendants 1 ∧ detour.isReachable 1 5 = false ∧ detour.isReachable 5 5 = true ∧
      4 ∉ detour ∧ detour.descendants 4 = ∅ ∧ detour.isReachable 4 4 = false := by
  have around : TransGen detour.Joins 2 2 := .head (by decide : detour.Joins 2 3) (.single (by decide))
  have onward : TransGen detour.Joins 1 3 := .head (by decide : detour.Joins 1 2) (.single (by decide))
  have outside : 4 ∉ detour := by decide
  obtain ⟨descendants, _, reachable, _⟩ := reach_exact detour 1 5
  have sealed : 5 ∉ detour.descendants 1 := by
    intro member
    obtain ⟨node, _, step, source, _⟩ := TransGen.tail'_iff.mp (descendants.mp member)
    have within : ∀ edge ∈ detour.edges.toList, edge.target = 5 → edge.source ∉ detour := by decide
    exact within ⟨node, 5⟩ step rfl source
  refine ⟨onward, (reach_exact detour 1 3).1.mpr onward, (reach_exact detour 2 2).1.mpr around, sealed,
    ?_, (reach_exact detour 5 5).2.2.1.mpr ⟨by decide, by decide, .inl rfl⟩, outside,
    (reach_exact detour 4 4).2.1 outside, ?_⟩
  · simpa [sealed] using reachable
  · simpa [outside] using (reach_exact detour 4 4).2.2.1

/-! ## Redundant edges -/

variable {edge : Edge α}

theorem joins_addEdge {source target : α} : (graph.addEdge edge).Joins source target ↔
    graph.Joins source target ∨ edge = ⟨source, target⟩ ∧ source ∈ graph ∧ target ∈ graph := by
  rw [Joins, Joins, ← or_and_right, addEdge, OrderedSet.mem_insert, or_comm, @eq_comm _ edge]
  rfl

/-- An edge to a node that other edges lead to already makes no more nodes reachable. -/
theorem transGen_addEdge (redundant : TransGen graph.Joins edge.source edge.target) :
    TransGen (graph.addEdge edge).Joins = TransGen graph.Joins := by
  have kept (source target : α) (joins : graph.Joins source target) :
      (graph.addEdge edge).Joins source target := joins_addEdge.mpr (.inl joins)
  have reached (source target : α) (joins : (graph.addEdge edge).Joins source target) :
      TransGen graph.Joins source target := by
    rcases joins_addEdge.mp joins with old | ⟨rfl, _⟩
    · exact .single old
    · exact redundant
  funext source target
  exact propext ⟨TransGen.closed reached source target, TransGen.mono kept source target⟩

/-- Nor do several such edges. -/
theorem transGen_foldl_addEdge {edges : List (Edge α)}
    (redundant : ∀ edge ∈ edges, TransGen graph.Joins edge.source edge.target) :
    TransGen (edges.foldl addEdge graph).Joins = TransGen graph.Joins := by
  induction edges generalizing graph with
  | nil => rfl
  | cons edge rest ih =>
    obtain ⟨first, others⟩ := List.forall_mem_cons.mp redundant
    have same := transGen_addEdge first
    rw [List.foldl_cons, ih (same ▸ others), same]

end Graph

end ProcessFlow
