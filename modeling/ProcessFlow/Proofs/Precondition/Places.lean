import ProcessFlow.Proofs.Precondition.Nodes

/-! # Places in a precondition

The place of a node is the way to it from the root, as the numbers of the children that lead there. In
lexicographic order every place comes before those below it, and these come before the later
siblings. The walk meets the nodes of all places in this order, and the depth of a node in the outline
is the length of its place.
-/

namespace ProcessFlow

namespace Precondition

def at? (tree : Precondition) : List Nat → Option Precondition
  | [] => some tree
  | number :: place => tree.children[number]?.bind fun child => child.at? place

/-- The nodes with their places: every place once, in lexicographic order. -/
structure Lists (tree : Precondition) (visits : List (List Nat × Precondition)) : Prop where
  ascending : visits.Pairwise fun first second => first.1 < second.1
  complete : ∀ place node, (place, node) ∈ visits ↔ tree.at? place = some node

/-- A node of a child with its place in the tree. -/
def within (number : Nat) (visit : List Nat × Precondition) : List Nat × Precondition :=
  (number :: visit.1, visit.2)

mutual

/-- The nodes of a precondition with their places, in pre-order. -/
def visits : Precondition → List (List Nat × Precondition)
  | .all children => ([], .all children) :: visitsFrom 0 children
  | .any children => ([], .any children) :: visitsFrom 0 children
  | .not child => ([], .not child) :: child.visits.map (within 0)
  | leaf => [([], leaf)]

/-- The nodes of children with their places, from the child of a number on. -/
def visitsFrom (number : Nat) : List Precondition → List (List Nat × Precondition)
  | [] => []
  | child :: rest => child.visits.map (within number) ++ visitsFrom (number + 1) rest

end

variable {tree node : Precondition} {number : Nat} {place : List Nat}

theorem visits_eq (tree : Precondition) : tree.visits = ([], tree) :: visitsFrom 0 tree.children := by
  cases tree <;> simp [visits, visitsFrom, children]

theorem mem_visitsFrom {children : List Precondition} : (place, node) ∈ visitsFrom number children ↔
    ∃ index child below, children[index]? = some child ∧ (below, node) ∈ child.visits ∧
      place = (number + index) :: below := by
  induction children generalizing number with
  | nil => simp [visitsFrom]
  | cons head rest ih =>
    rw [visitsFrom, List.mem_append, ih, List.mem_map]
    constructor
    · rintro (⟨⟨below, _⟩, member, same⟩ | ⟨index, child, below, isChild, member, rfl⟩)
      · cases same
        exact ⟨0, head, below, rfl, member, rfl⟩
      · exact ⟨index + 1, child, below, isChild, member, by rw [Nat.add_right_comm, Nat.add_assoc]⟩
    · rintro ⟨index, child, below, isChild, member, rfl⟩
      cases index with
      | zero =>
        cases isChild
        exact .inl ⟨(below, node), member, rfl⟩
      | succ index =>
        exact .inr ⟨index, child, below, isChild, member, by rw [Nat.add_right_comm, Nat.add_assoc]⟩

theorem mem_visits : (place, node) ∈ tree.visits ↔ tree.at? place = some node := by
  induction tree using children_induction generalizing place with
  | step tree ih =>
    rw [visits_eq, List.mem_cons, mem_visitsFrom]
    cases place with
    | nil => simp [at?, eq_comm]
    | cons number place =>
      simp only [at?, Option.bind_eq_some_iff, Prod.mk.injEq, List.cons_ne_nil, false_and, false_or,
        Nat.zero_add, List.cons.injEq]
      constructor
      · rintro ⟨_, child, _, isChild, member, rfl, rfl⟩
        exact ⟨child, isChild, (ih child (List.mem_of_getElem? isChild)).mp member⟩
      · rintro ⟨child, isChild, found⟩
        exact ⟨number, child, place, isChild,
          (ih child (List.mem_of_getElem? isChild)).mpr found, rfl, rfl⟩

/-- A place comes before those of the next children. -/
theorem lt_of_mem_visitsFrom {children : List Precondition} {first : List Nat}
    (later : (place, node) ∈ visitsFrom (number + 1) children) : number :: first < place := by
  obtain ⟨index, _, below, _, _, rfl⟩ := mem_visitsFrom.mp later
  exact List.cons_lt_cons_iff.mpr (.inl (by omega))

theorem pairwise_visitsFrom {children : List Precondition}
    (each : ∀ child ∈ children, child.visits.Pairwise fun first second => first.1 < second.1) :
    (visitsFrom number children).Pairwise fun first second => first.1 < second.1 := by
  induction children generalizing number with
  | nil => exact List.Pairwise.nil
  | cons head rest ih =>
    obtain ⟨here, later⟩ := List.forall_mem_cons.mp each
    rw [visitsFrom, List.pairwise_append]
    refine ⟨?_, ih later, ?_⟩
    · exact here.map _ fun _ _ before => List.cons_lt_cons_iff.mpr (.inr ⟨rfl, before⟩)
    · intro first firstMember second secondMember
      obtain ⟨_, _, rfl⟩ := List.mem_map.mp firstMember
      exact lt_of_mem_visitsFrom secondMember

theorem pairwise_visits (tree : Precondition) :
    tree.visits.Pairwise fun first second => first.1 < second.1 := by
  induction tree using children_induction with
  | step tree ih =>
    rw [visits_eq, List.pairwise_cons]
    refine ⟨?_, pairwise_visitsFrom ih⟩
    rintro ⟨place, node⟩ member
    obtain ⟨_, _, _, _, _, rfl⟩ := mem_visitsFrom.mp member
    exact List.nil_lt_cons ..

/-- Every occurrence of a node is visited once, in the order of the places. -/
theorem lists_visits (tree : Precondition) : tree.Lists tree.visits :=
  ⟨pairwise_visits tree, fun _ _ => mem_visits⟩

/-! ## The walk and the levels -/

/-- A visited node with its depth, counted on from that of the root. -/
def depthFrom (depth : Nat) (visit : List Nat × Precondition) : Nat × Precondition :=
  (depth + visit.1.length, visit.2)

theorem depthFrom_within (depth number : Nat) (visit : List Nat × Precondition) :
    depthFrom depth (within number visit) = depthFrom (depth + 1) visit := by
  rw [depthFrom, depthFrom, within, List.length_cons, Nat.add_right_comm, Nat.add_assoc]

theorem levelsList_eq_map {children : List Precondition} {depth : Nat}
    (each : ∀ child ∈ children, child.levels (depth + 1) = child.visits.map (depthFrom (depth + 1))) :
    levelsList (depth + 1) children = (visitsFrom number children).map (depthFrom depth) := by
  induction children generalizing number with
  | nil => rfl
  | cons head rest ih =>
    obtain ⟨here, later⟩ := List.forall_mem_cons.mp each
    have below : depthFrom depth ∘ within number = depthFrom (depth + 1) :=
      funext (depthFrom_within depth number)
    rw [levelsList, visitsFrom, List.map_append, List.map_map, below, here, ih later]

/-- The depth of a node is the length of its place. -/
theorem levels_eq_map (tree : Precondition) (depth : Nat) :
    tree.levels depth = tree.visits.map (depthFrom depth) := by
  induction tree using children_induction generalizing depth with
  | step tree ih =>
    rw [levels_eq, visits_eq, List.map_cons,
      levelsList_eq_map fun child member => ih child member (depth + 1)]
    rfl

/-- The walk is that of the visited nodes. -/
theorem walk_eq_map (tree : Precondition) : tree.walk = tree.visits.map Prod.snd := by
  rw [← map_levels_zero, levels_eq_map, List.map_map]
  rfl

/-! ## The iterator -/

/-- A step of the iterator: take the node at the end of the stack, and put its children there instead,
the last one first. -/
def next? (stack : List Precondition) : Option (Precondition × List Precondition) :=
  stack.getLast?.map fun node => (node, stack.dropLast ++ node.children.reverse)

/-- From a stack the iterator yields these nodes and ends. -/
inductive Yields : List Precondition → List Precondition → Prop
  | ended {stack : List Precondition} (ends : next? stack = none) : Yields stack []
  | yielded {stack rest nodes : List Precondition} {node : Precondition}
    (goes : next? stack = some (node, rest)) (further : Yields rest nodes) :
    Yields stack (node :: nodes)

theorem next?_reverse_cons (node : Precondition) (stack : List Precondition) :
    next? (node :: stack).reverse = some (node, (node.children ++ stack).reverse) := by
  simp [next?]

/-- The stack holds the trees that are still to be walked, the next one last. -/
theorem yields_walkStack (stack : List Precondition) : Yields stack.reverse (walkStack stack) := by
  fun_induction walkStack stack with
  | case1 => exact .ended rfl
  | case2 node stack ih => exact .yielded (next?_reverse_cons node stack) ih

theorem Yields.unique {stack left right : List Precondition} (first : Yields stack left)
    (second : Yields stack right) : left = right := by
  induction first generalizing right with
  | ended ends =>
    cases second with
    | ended _ => rfl
    | yielded goes _ => cases ends.symm.trans goes
  | yielded goes _ ih =>
    cases second with
    | ended ends => cases ends.symm.trans goes
    | yielded also further =>
      cases also.symm.trans goes
      rw [ih further]

/-- The iterator ends, and what it yields is the walk. -/
theorem yields_iff {nodes : List Precondition} : Yields [tree] nodes ↔ nodes = tree.walk := by
  constructor
  · intro yields
    exact yields.unique (yields_walkStack [tree])
  · rintro rfl
    exact yields_walkStack [tree]

end Precondition

end ProcessFlow
