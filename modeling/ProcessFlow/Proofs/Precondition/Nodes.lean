import ProcessFlow.Precondition.Outline

/-! # The nodes of a precondition

A precondition is taken apart into its children, and its walk visits it and the nodes of each child.
-/

namespace ProcessFlow

namespace Precondition

theorem nodeCount_le_of_mem {child : Precondition} {children : List Precondition}
    (member : child ∈ children) : child.nodeCount ≤ nodeCountList children := by
  induction children with
  | nil => cases member
  | cons head rest ih =>
    rw [nodeCountList]
    rcases List.mem_cons.mp member with rfl | member
    · omega
    · have := ih member
      omega

/-- What holds of a precondition if it holds of its children holds of every precondition. -/
@[elab_as_elim]
theorem children_induction {motive : Precondition → Prop} (tree : Precondition)
    (step : ∀ tree, (∀ child ∈ tree.children, motive child) → motive tree) : motive tree :=
  step tree fun child _member => children_induction child step
termination_by tree.nodeCount
decreasing_by
  have := nodeCount_le_of_mem _member
  rw [nodeCount_eq tree]
  omega

theorem walkStack_eq_flatMap (stack : List Precondition) : walkStack stack = stack.flatMap walk := by
  induction stack with
  | nil => simp [walkStack]
  | cons tree rest ih =>
    rw [← List.singleton_append, walkStack_append, ih, List.flatMap_append, List.flatMap_singleton]
    rfl

/-- The walk is pre-order: a tree before its children, and these one after the other. -/
theorem walk_eq (tree : Precondition) : tree.walk = tree :: tree.children.flatMap walk := by
  rw [walk, walkStack, List.append_nil, walkStack_eq_flatMap]

theorem mem_walk {node tree : Precondition} :
    node ∈ tree.walk ↔ node = tree ∨ ∃ child ∈ tree.children, node ∈ child.walk := by
  rw [walk_eq, List.mem_cons, List.mem_flatMap]

/-- The property holds of every node. -/
def Throughout (property : Precondition → Prop) (tree : Precondition) : Prop :=
  ∀ node ∈ tree.walk, property node

theorem throughout_iff {property : Precondition → Prop} {tree : Precondition} :
    tree.Throughout property ↔
      property tree ∧ ∀ child ∈ tree.children, child.Throughout property := by
  constructor
  · intro throughout
    refine ⟨throughout tree (mem_walk.mpr (.inl rfl)), ?_⟩
    intro child isChild node member
    exact throughout node (mem_walk.mpr (.inr ⟨child, isChild, member⟩))
  · rintro ⟨root, below⟩ node member
    rcases mem_walk.mp member with rfl | ⟨child, isChild, member⟩
    · exact root
    · exact below child isChild node member

end Precondition

end ProcessFlow
