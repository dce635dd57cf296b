import Mathlib
import ProcessFlow.Proofs.Graph.Reach

/-! # Weakly connected components

Edges walked in either direction link the nodes of a graph into classes. The search from a root takes
the class of the root out of the untouched nodes and leaves whole classes, so each root that is not yet
placed adds its own class. The roots come in ascending order, so the classes come in the order of their
least nodes.
-/

namespace ProcessFlow

namespace Graph

open Relation

variable {α : Type} [LT α]

/-! ## Edges in either direction -/

section Surroundings

variable [DecidableEq α] {graph : Graph α} {node other : α}

/-- The nodes that an edge of the graph joins to a node, in either direction. -/
def surroundings (graph : Graph α) (node : α) : List α :=
  if node ∈ graph then graph.neighbours node else []

theorem mem_surroundings : other ∈ graph.surroundings node ↔ SymmGen graph.Joins node other := by
  rw [surroundings, SymmGen, Joins, Joins]
  split
  · rename_i member
    rw [mem_neighbours]
    tauto
  · rename_i outside
    simp [outside]

theorem leads_surroundings : Leads graph.surroundings = EqvGen graph.Joins := by
  simp only [Leads, mem_surroundings]
  exact EqvGen.reflTransGen_symmGen graph.Joins

/-- Edges in either direction do not lead out of the graph. -/
theorem mem_of_eqvGen (link : EqvGen graph.Joins node other) (member : node ∈ graph) :
    other ∈ graph := by
  rw [← EqvGen.reflTransGen_symmGen] at link
  cases link with
  | refl => exact member
  | tail _ step => exact step.elim (fun joins => joins.2.2) fun joins => joins.2.1

end Surroundings

/-! ## One class taken out -/

section Class

variable {linked : α → α → Prop} {untouched rest : OrderedSet α} {root node other : α}
  (closed : ∀ node ∈ untouched, ∀ other, linked node other → other ∈ untouched)
  (left : ∀ node, node ∈ rest ↔ node ∈ untouched ∧ ¬linked root node)

include closed left

/-- What is taken out is the class of the root. -/
theorem mem_class_iff [DecidableEq α] (present : root ∈ untouched) :
    node ∈ untouched.filter (· ∉ rest) ↔ linked root node := by
  rw [OrderedSet.mem_filter, decide_eq_true_eq, left, not_and, not_not]
  exact ⟨fun ⟨inside, taken⟩ => taken inside,
    fun link => ⟨closed root present node link, fun _ => link⟩⟩

/-- What is left holds no part of a class without the others. -/
theorem closed_rest (equivalence : Equivalence linked) (member : node ∈ rest)
    (link : linked node other) : other ∈ rest := by
  obtain ⟨inside, apart⟩ := (left node).mp member
  refine (left other).mpr ⟨closed node inside other link, fun taken => apart ?_⟩
  exact equivalence.trans taken (equivalence.symm link)

end Class

/-! ## Classes in order -/

variable [LE α]

/-- The least node of the first set is less than every node of the second. -/
def LeastBefore (left right : OrderedSet α) : Prop :=
  ∃ least ∈ left, (∀ node ∈ left, least ≤ node) ∧ ∀ node ∈ right, least < node

/-- Some sets are the classes of the untouched nodes that are linked with one another, in the order of
their least nodes. -/
structure Divides (linked : α → α → Prop) (untouched : OrderedSet α) (sets : List (OrderedSet α)) :
    Prop where
  classes : ∀ part ∈ sets, ∃ node ∈ untouched, ∀ other, other ∈ part ↔ linked node other
  cover : ∀ node ∈ untouched, ∃ part ∈ sets, node ∈ part
  ascending : sets.Pairwise LeastBefore

variable {linked : α → α → Prop} {untouched rest : OrderedSet α} {root : α} {sets : List (OrderedSet α)}

/-- Two nodes are in one class exactly if they are linked. -/
theorem Divides.share_iff (divides : Divides linked untouched sets) (equivalence : Equivalence linked)
    {node other : α} (inside : node ∈ untouched) :
    (∃ part ∈ sets, node ∈ part ∧ other ∈ part) ↔ linked node other := by
  constructor
  · rintro ⟨part, member, holds, holdsToo⟩
    obtain ⟨first, _, isClass⟩ := divides.classes part member
    exact equivalence.trans (equivalence.symm ((isClass node).mp holds)) ((isClass other).mp holdsToo)
  · intro link
    obtain ⟨part, member, holds⟩ := divides.cover node inside
    obtain ⟨first, _, isClass⟩ := divides.classes part member
    exact ⟨part, member, holds, (isClass other).mpr (equivalence.trans ((isClass node).mp holds) link)⟩

variable [Std.LawfulOrderLT α]

/-- The classes are all there. -/
theorem Divides.mem_iff (divides : Divides linked untouched sets) (equivalence : Equivalence linked)
    {part : OrderedSet α} :
    part ∈ sets ↔ ∃ node ∈ untouched, ∀ other, other ∈ part ↔ linked node other := by
  constructor
  · exact divides.classes part
  · rintro ⟨node, inside, isClass⟩
    obtain ⟨found, member, holds⟩ := divides.cover node inside
    obtain ⟨first, _, isClassToo⟩ := divides.classes found member
    have link := (isClassToo node).mp holds
    have same : part = found := by
      ext other
      rw [isClass, isClassToo]
      exact ⟨equivalence.trans link, equivalence.trans (equivalence.symm link)⟩
    exact same ▸ member

/-- No two classes share a node. -/
theorem Divides.disjoint (divides : Divides linked untouched sets) (equivalence : Equivalence linked) :
    sets.Pairwise fun left right => ∀ node ∈ left, node ∉ right := by
  refine divides.ascending.imp_of_mem ?_
  rintro left right isLeft isRight ⟨least, inLeft, _, below⟩ node member memberToo
  obtain ⟨first, _, isClass⟩ := divides.classes left isLeft
  obtain ⟨second, _, isClassToo⟩ := divides.classes right isRight
  have link := equivalence.trans (equivalence.symm ((isClass node).mp member)) ((isClass least).mp inLeft)
  have inRight := (isClassToo least).mpr (equivalence.trans ((isClassToo node).mp memberToo) link)
  exact Std.lt_irrefl (below least inRight)

/-- The classes in the order of their least nodes are one list. -/
theorem Divides.eq {others : List (OrderedSet α)} (divides : Divides linked untouched sets)
    (dividesToo : Divides linked untouched others) (equivalence : Equivalence linked) :
    sets = others := by
  refine eq_of_pairwise ?_ divides.ascending dividesToo.ascending fun part => ?_
  · rintro left right ⟨least, inLeft, _, below⟩ ⟨other, inRight, _, belowToo⟩
    exact Std.not_gt_of_lt (below other inRight) (belowToo least inLeft)
  · rw [divides.mem_iff equivalence, dividesToo.mem_iff equivalence]

variable [Std.IsLinearOrder α] [DecidableEq α]

/-- The class of the least untouched node comes before those of the nodes that are left. -/
theorem Divides.cons (divides : Divides linked rest sets) (equivalence : Equivalence linked)
    (closed : ∀ node ∈ untouched, ∀ other, linked node other → other ∈ untouched)
    (left : ∀ node, node ∈ rest ↔ node ∈ untouched ∧ ¬linked root node)
    (present : root ∈ untouched) (least : ∀ node ∈ untouched, root ≤ node) :
    Divides linked untouched (untouched.filter (· ∉ rest) :: sets) where
  classes := by
    refine List.forall_mem_cons.mpr
      ⟨⟨root, present, fun other => mem_class_iff closed left present⟩, fun part member => ?_⟩
    obtain ⟨node, remains, isClass⟩ := divides.classes part member
    exact ⟨node, ((left node).mp remains).1, isClass⟩
  cover node member := by
    by_cases remains : node ∈ rest
    · obtain ⟨part, isPart, holds⟩ := divides.cover node remains
      exact ⟨part, List.mem_cons_of_mem _ isPart, holds⟩
    · exact ⟨_, List.mem_cons_self .., OrderedSet.mem_filter.mpr ⟨member, decide_eq_true remains⟩⟩
  ascending := by
    refine List.pairwise_cons.mpr ⟨fun part member => ⟨root, ?_, ?_, ?_⟩, divides.ascending⟩
    · exact (mem_class_iff closed left present).mpr (equivalence.refl root)
    · exact fun node inside => least node (OrderedSet.mem_filter.mp inside).1
    · intro node inside
      obtain ⟨first, remains, isClass⟩ := divides.classes part member
      have kept := closed_rest closed left equivalence remains ((isClass node).mp inside)
      obtain ⟨stays, apart⟩ := (left node).mp kept
      refine Std.lt_of_le_of_ne (least node stays) ?_
      rintro rfl
      exact apart (equivalence.refl root)

/-- Roots in ascending order, all untouched nodes among them, give the classes of the untouched
nodes. -/
theorem divides_parts {next : α → List α} {roots : List α} (order : roots.Pairwise (· < ·))
    (equivalence : Equivalence (Leads next))
    (closed : ∀ node ∈ untouched, ∀ other, Leads next node other → other ∈ untouched)
    (within : ∀ node ∈ untouched, node ∈ roots) :
    Divides (Leads next) untouched (parts next untouched roots) := by
  induction roots generalizing untouched with
  | nil => exact ⟨nofun, fun node member => (nomatch within node member), .nil⟩
  | cons root roots ih =>
    obtain ⟨below, order⟩ := List.pairwise_cons.mp order
    rw [parts]
    split
    · rename_i present
      have left (node : α) : node ∈ spread next untouched [root] ↔
          node ∈ untouched ∧ ¬Leads next root node := by
        have inside : ∀ source ∈ untouched, ∀ target ∈ next source, target ∈ untouched :=
          fun source member target step => closed source member target (.single step)
        rw [← taken_iff_leads inside present, not_and, not_not]
        exact ⟨fun kept => ⟨mem_of_mem_spread kept, fun _ => kept⟩, fun ⟨inside, kept⟩ => kept inside⟩
      have divides := ih order (fun node kept other => closed_rest closed left equivalence kept) ?_
      · refine divides.cons equivalence closed left present fun node inside => ?_
        rcases List.mem_cons.mp (within node inside) with rfl | later
        · exact Std.le_refl node
        · exact Std.le_of_lt (below node later)
      · intro node kept
        obtain ⟨inside, apart⟩ := (left node).mp kept
        refine (List.mem_cons.mp (within node inside)).resolve_left ?_
        rintro rfl
        exact apart .refl
    · rename_i placed
      refine ih order closed fun node inside => (List.mem_cons.mp (within node inside)).resolve_left ?_
      rintro rfl
      exact placed inside

/-! ## The components of a graph -/

omit [Std.IsLinearOrder α] in
theorem components_eq (graph : Graph α) :
    graph.components = parts graph.surroundings graph.nodes graph.nodes.toList := by
  rw [components]
  congr 1
  funext node
  exact OrderedMap.getD_of_keys graph.nodes.ascending graph.neighbours node []

theorem divides_components (graph : Graph α) :
    Divides (EqvGen graph.Joins) graph.nodes graph.components := by
  rw [components_eq, ← leads_surroundings]
  apply divides_parts graph.nodes.ascending
  · rw [leads_surroundings]
    exact EqvGen.is_equivalence graph.Joins
  · rw [leads_surroundings]
    exact fun node member other link => mem_of_eqvGen link member
  · exact fun node member => member

/-- The components of a graph are the classes of its nodes under the least equivalence that holds the
edges between nodes of the graph. None of them is empty, no two share a node, and together they hold all
nodes. Two nodes are in one component exactly if such edges, each walked in either direction, lead from
one to the other. The components come in the order of their least nodes. -/
theorem components_exact (graph : Graph α) :
    (∀ part, part ∈ graph.components ↔
      ∃ node ∈ graph, ∀ other, other ∈ part ↔ other ∈ graph ∧ EqvGen graph.Joins node other) ∧
    (∀ part ∈ graph.components, ∃ node, node ∈ part) ∧
    (graph.components.Pairwise fun left right => ∀ node ∈ left, node ∉ right) ∧
    (∀ node, (∃ part ∈ graph.components, node ∈ part) ↔ node ∈ graph) ∧
    (∀ node ∈ graph, ∀ other ∈ graph, (∃ part ∈ graph.components, node ∈ part ∧ other ∈ part) ↔
      ReflTransGen (SymmGen graph.Joins) node other) ∧
    graph.components.Pairwise LeastBefore := by
  have equivalence := EqvGen.is_equivalence graph.Joins
  have divides := graph.divides_components
  refine ⟨fun part => ?_, fun part member => ?_, divides.disjoint equivalence, fun node => ?_,
    fun node inside other _ => ?_, divides.ascending⟩
  · rw [divides.mem_iff equivalence]
    refine exists_congr fun node => and_congr_right fun inside => forall_congr' fun other => ?_
    rw [and_iff_right_of_imp fun link => mem_of_eqvGen link inside]
  · obtain ⟨node, _, isClass⟩ := divides.classes part member
    exact ⟨node, (isClass node).mpr (equivalence.refl node)⟩
  · refine ⟨?_, divides.cover node⟩
    rintro ⟨part, member, holds⟩
    obtain ⟨first, inside, isClass⟩ := divides.classes part member
    exact mem_of_eqvGen ((isClass node).mp holds) inside
  · rw [EqvGen.reflTransGen_symmGen]
    exact divides.share_iff equivalence inside

/-- Edges against the order of the nodes, a self loop, and a way through a node that is not in the
graph. -/
def islands : Graph Nat := .ofLists [5, 1, 2, 3, 4] [⟨4, 1⟩, ⟨2, 5⟩, ⟨2, 2⟩, ⟨3, 9⟩, ⟨9, 5⟩]

theorem components_exact_islands :
    islands.components.map OrderedSet.toList = [[1, 4], [2, 5], [3]] ∧
      (∃ part ∈ islands.components, 5 ∈ part ∧ 2 ∈ part) ∧
      (¬ReflTransGen (SymmGen islands.Joins) 3 5) ∧ islands.components.Pairwise LeastBefore := by
  obtain ⟨_, _, _, _, linked, order⟩ := components_exact islands
  have listed : islands.components.map OrderedSet.toList = [[1, 4], [2, 5], [3]] := by cbv
  refine ⟨listed, (linked 5 (by decide) 2 (by decide)).mpr (.single (.inr (by decide))), ?_, order⟩
  intro walk
  obtain ⟨part, member, three, five⟩ := (linked 3 (by decide) 5 (by decide)).mpr walk
  have isListed := List.mem_map_of_mem (f := OrderedSet.toList) member
  rw [listed] at isListed
  have apart : ∀ list ∈ [[1, 4], [2, 5], [3]], 3 ∈ list → 5 ∉ list := by decide
  exact apart _ isListed three five

end Graph

end ProcessFlow
