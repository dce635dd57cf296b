import Mathlib.Algebra.Ring.Parity
import ProcessFlow.Proofs.Precondition.Nodes

/-! # What opens and closes a gate

A leaf under an even number of negations works for a gate, and one under an odd number against it. So
a gate stays open while leaves of the first kind only open and those of the second kind only close. In
particular it depends on nothing that its leaves do not ask for. Since `\exec` is open until its
target executes, a gate without negations that is closed stays closed while processes execute.
-/

namespace ProcessFlow

namespace Precondition

/-! ## Leaves -/

/-- The leaf, a node without children, stands in the tree under this many negations. -/
inductive HasLeaf (leaf : Precondition) : Nat → Precondition → Prop
  | here (single : leaf.children = []) : HasLeaf leaf 0 leaf
  | all {nots : Nat} {children : List Precondition} {child : Precondition}
    (member : child ∈ children) (below : HasLeaf leaf nots child) : HasLeaf leaf nots (.all children)
  | any {nots : Nat} {children : List Precondition} {child : Precondition}
    (member : child ∈ children) (below : HasLeaf leaf nots child) : HasLeaf leaf nots (.any children)
  | not {nots : Nat} {child : Precondition} (below : HasLeaf leaf nots child) :
    HasLeaf leaf (nots + 1) (.not child)

/-- Whether a leaf is open, by what it asks: `\exec` is open while its target has not executed, and the
others once what they wait for is complete. Without children, `all` is open and `any` is closed. -/
def OpenLeaf (now : Circumstances) : Precondition → Prop
  | .always => True
  | .executable target => now.hasExecuted target = false
  | .feedbackCompleted source => now.isFeedbackCompleted source = true
  | .allFeedbackCompleted context => now.areReachableSourcesCompleted context = true
  | .all _ => True
  | .any _ | .not _ => False

/-- From the first circumstances to the second, leaves under an even number of negations do not close,
and leaves under an odd number do not open. -/
structure Favours (tree : Precondition) (before after : Circumstances) : Prop where
  even : ∀ leaf nots, HasLeaf leaf nots tree → Even nots → leaf.OpenLeaf before → leaf.OpenLeaf after
  odd : ∀ leaf nots, HasLeaf leaf nots tree → Odd nots → leaf.OpenLeaf after → leaf.OpenLeaf before

variable {tree child leaf : Precondition} {children : List Precondition} {nots : Nat}
  {now before after left right : Circumstances}

theorem HasLeaf.mem_walk (has : HasLeaf leaf nots tree) : leaf ∈ tree.walk := by
  induction has with
  | here _ => exact Precondition.mem_walk.mpr (.inl rfl)
  | all member _ ih | any member _ ih => exact Precondition.mem_walk.mpr (.inr ⟨_, member, ih⟩)
  | not _ ih => exact Precondition.mem_walk.mpr (.inr ⟨_, List.mem_singleton_self _, ih⟩)

theorem HasLeaf.children_eq (has : HasLeaf leaf nots tree) : leaf.children = [] := by
  induction has with
  | here single => exact single
  | all _ _ ih | any _ _ ih | not _ ih => exact ih

theorem Favours.of_all (favours : (all children).Favours before after)
    (member : child ∈ children) : child.Favours before after :=
  ⟨fun leaf nots has => favours.even leaf nots (.all member has),
    fun leaf nots has => favours.odd leaf nots (.all member has)⟩

theorem Favours.of_any (favours : (any children).Favours before after)
    (member : child ∈ children) : child.Favours before after :=
  ⟨fun leaf nots has => favours.even leaf nots (.any member has),
    fun leaf nots has => favours.odd leaf nots (.any member has)⟩

/-- What works for a negation works against its child. -/
theorem Favours.of_not (favours : (not child).Favours before after) : child.Favours after before :=
  ⟨fun leaf nots has even => favours.odd leaf (nots + 1) (.not has) even.add_one,
    fun leaf nots has odd => favours.even leaf (nots + 1) (.not has) odd.add_one⟩

/-- A leaf evaluates to what it asks. -/
theorem evaluate_leaf_iff (single : leaf.children = []) :
    leaf.evaluate now = true ↔ leaf.OpenLeaf now := by
  cases leaf with
  | always => exact iff_of_true rfl trivial
  | executable target => rw [evaluate, Bool.not_eq_true', OpenLeaf]
  | feedbackCompleted source | allFeedbackCompleted context => exact Iff.rfl
  | all children =>
    cases single
    exact iff_of_true rfl trivial
  | any children =>
    cases single
    exact iff_of_false Bool.false_ne_true id
  | not child => cases single

theorem Favours.of_leaf (favours : tree.Favours before after) (single : tree.children = [])
    (opened : tree.evaluate before = true) : tree.evaluate after = true := by
  rw [evaluate_leaf_iff single] at opened ⊢
  exact favours.even tree 0 (.here single) Even.zero opened

/-- A gate stays open when its leaves change in its favour. -/
theorem evaluate_of_favours (favours : tree.Favours before after)
    (opened : tree.evaluate before = true) : tree.evaluate after = true := by
  induction tree using children_induction generalizing before after with
  | step tree ih =>
    cases tree with
    | all children =>
      rw [evaluate, evaluateAll_eq, List.all_eq_true] at opened ⊢
      intro child member
      exact ih child member (favours.of_all member) (opened child member)
    | any children =>
      rw [evaluate, evaluateAny_eq, List.any_eq_true] at opened ⊢
      obtain ⟨child, member, childOpened⟩ := opened
      exact ⟨child, member, ih child member (favours.of_any member) childOpened⟩
    | not child =>
      rw [evaluate, Bool.not_eq_true'] at opened ⊢
      rw [← Bool.not_eq_true] at opened ⊢
      intro childOpened
      exact opened (ih child (List.mem_singleton_self child) favours.of_not childOpened)
    | always | executable _ | feedbackCompleted _ | allFeedbackCompleted _ =>
      exact favours.of_leaf rfl opened

/-! ## What a gate asks for -/

/-- What the node asks about its identifier, if it has one, has the same answer both times. -/
def SameAnswer (left right : Circumstances) : Precondition → Prop
  | .executable target => left.hasExecuted target = right.hasExecuted target
  | .feedbackCompleted source => left.isFeedbackCompleted source = right.isFeedbackCompleted source
  | .allFeedbackCompleted context =>
    left.areReachableSourcesCompleted context = right.areReachableSourcesCompleted context
  | .always | .all _ | .any _ | .not _ => True

theorem openLeaf_congr (same : leaf.SameAnswer left right) :
    leaf.OpenLeaf left ↔ leaf.OpenLeaf right := by
  cases leaf with
  | executable target => exact Eq.congr_left same
  | feedbackCompleted source | allFeedbackCompleted context => exact Eq.congr_left same
  | always | all children | any children | not child => exact Iff.rfl

/-- A gate depends only on what its nodes ask for. -/
theorem evaluate_congr (same : tree.Throughout (SameAnswer left right)) :
    tree.evaluate left = tree.evaluate right := by
  have leaves (leaf : Precondition) (nots : Nat) (has : HasLeaf leaf nots tree) :
      leaf.OpenLeaf left ↔ leaf.OpenLeaf right := openLeaf_congr (same leaf has.mem_walk)
  have onward : tree.Favours left right :=
    ⟨fun leaf nots has _ => (leaves leaf nots has).mp, fun leaf nots has _ => (leaves leaf nots has).mpr⟩
  have back : tree.Favours right left :=
    ⟨fun leaf nots has _ => (leaves leaf nots has).mpr, fun leaf nots has _ => (leaves leaf nots has).mp⟩
  exact Bool.eq_iff_iff.mpr ⟨evaluate_of_favours onward, evaluate_of_favours back⟩

end Precondition

/-! ## Gates without negations -/

/-- Between the first circumstances and the second, processes have executed, and nothing else has
happened. -/
structure Circumstances.MoreExecuted (before after : Circumstances) : Prop where
  executed : ∀ process, before.hasExecuted process = true → after.hasExecuted process = true
  completed : after.isFeedbackCompleted = before.isFeedbackCompleted
  reachable : after.areReachableSourcesCompleted = before.areReachableSourcesCompleted

namespace Precondition

variable {tree leaf : Precondition} {nots : Nat} {before after : Circumstances}

def IsNegation (node : Precondition) : Prop := ∃ child, node = .not child

/-- Without negations no leaf stands under one. -/
theorem HasLeaf.nots_eq_zero (has : HasLeaf leaf nots tree)
    (plain : tree.Throughout fun node => ¬node.IsNegation) : nots = 0 := by
  induction has with
  | here _ => rfl
  | all member _ ih | any member _ ih => exact ih ((throughout_iff.mp plain).2 _ member)
  | not _ _ => exact absurd ⟨_, rfl⟩ (throughout_iff.mp plain).1

/-- No leaf opens because processes execute. -/
theorem OpenLeaf.of_moreExecuted (opened : leaf.OpenLeaf after) (more : before.MoreExecuted after) :
    leaf.OpenLeaf before := by
  cases leaf with
  | executable target =>
    rw [OpenLeaf, ← Bool.not_eq_true] at opened ⊢
    exact fun executed => opened (more.executed target executed)
  | feedbackCompleted source => rwa [OpenLeaf, ← more.completed]
  | allFeedbackCompleted context => rwa [OpenLeaf, ← more.reachable]
  | always | all children | any children | not child => exact opened

theorem favours_of_moreExecuted (plain : tree.Throughout fun node => ¬node.IsNegation)
    (more : before.MoreExecuted after) : tree.Favours after before where
  even _ _ _ _ opened := opened.of_moreExecuted more
  odd leaf nots has odd := by
    rw [has.nots_eq_zero plain] at odd
    exact absurd odd Nat.not_odd_zero

/-- Leaves evaluate to what they ask: an `\exec` leaf is open while its target has not executed. A gate
that is open stays open when its leaves under an even number of negations only open, and those under
an odd number only close. It depends only on what its nodes ask for; and without negations it does not
open because more processes execute. -/
theorem evaluate_polarity (tree : Precondition) :
    (∀ leaf nots, HasLeaf leaf nots tree → ∀ now, leaf.evaluate now = true ↔ leaf.OpenLeaf now) ∧
    (∀ before after, tree.Favours before after →
      tree.evaluate before = true → tree.evaluate after = true) ∧
    (∀ left right, tree.Throughout (SameAnswer left right) →
      tree.evaluate left = tree.evaluate right) ∧
    ((tree.Throughout fun node => ¬node.IsNegation) →
      ∀ before after : Circumstances, before.MoreExecuted after →
        tree.evaluate before = false → tree.evaluate after = false) := by
  refine ⟨fun _ _ has _ => evaluate_leaf_iff has.children_eq, fun _ _ => evaluate_of_favours,
    fun _ _ => evaluate_congr, ?_⟩
  intro plain before after more closed
  rw [← Bool.not_eq_true] at closed ⊢
  exact fun opened => closed (evaluate_of_favours (favours_of_moreExecuted plain more) opened)

/-- Some processes have executed, and one deliverable is complete. -/
def executed (processes : List ProcessId) : Circumstances :=
  ⟨processes.contains, (· = ⟨"D1"⟩), fun _ => false⟩

/-- Open once the process has executed or the deliverable is complete. -/
def executedOrComplete : Precondition :=
  .any [.not (.executable ⟨"P1"⟩), .feedbackCompleted ⟨"D1"⟩]

/-- Open before the process has executed, once the deliverable is complete. -/
def beforeExecution : Precondition := .all [.executable ⟨"P1"⟩, .feedbackCompleted ⟨"D1"⟩]

theorem hasLeaf_executedOrComplete (has : HasLeaf leaf nots executedOrComplete) :
    nots = 1 ∧ leaf = .executable ⟨"P1"⟩ ∨ nots = 0 ∧ leaf = .feedbackCompleted ⟨"D1"⟩ := by
  cases has with
  | here single => cases single
  | any member below =>
    simp only [List.mem_cons, List.not_mem_nil, or_false] at member
    rcases member with rfl | rfl
    · cases below with
      | here single => cases single
      | not below =>
        cases below
        exact .inl ⟨rfl, rfl⟩
    · cases below
      exact .inr ⟨rfl, rfl⟩

theorem favours_executedOrComplete :
    executedOrComplete.Favours (executed []) (executed [⟨"P1"⟩]) where
  even leaf nots has even opened := by
    rcases hasLeaf_executedOrComplete has with ⟨rfl, _⟩ | ⟨_, rfl⟩
    · exact absurd even Nat.not_even_one
    · exact opened
  odd leaf nots has odd opened := by
    rcases hasLeaf_executedOrComplete has with ⟨_, rfl⟩ | ⟨rfl, _⟩
    · cases opened
    · exact absurd odd Nat.not_odd_zero

/-- The first gate, whose `\exec` leaf stands under one negation and closes, stays open when the process
executes, and does not ask about another process; the second one, once closed, stays closed. -/
theorem evaluate_polarity_executed :
    HasLeaf (.executable ⟨"P1"⟩) 1 executedOrComplete ∧
    (executable ⟨"P1"⟩).evaluate (executed []) = true ∧
    ¬(executable ⟨"P1"⟩).evaluate (executed [⟨"P1"⟩]) = true ∧
    executedOrComplete.Favours (executed []) (executed [⟨"P1"⟩]) ∧
    executedOrComplete.evaluate (executed []) = true ∧
    executedOrComplete.evaluate (executed [⟨"P1"⟩]) = true ∧
    executedOrComplete.evaluate (executed [⟨"P1"⟩]) =
      executedOrComplete.evaluate (executed [⟨"P1"⟩, ⟨"P2"⟩]) ∧
    beforeExecution.evaluate (executed [⟨"P1"⟩]) = false ∧
    beforeExecution.evaluate (executed [⟨"P1"⟩, ⟨"P2"⟩]) = false := by
  obtain ⟨leaves, stays, depends, _⟩ := evaluate_polarity executedOrComplete
  obtain ⟨_, _, _, closes⟩ := evaluate_polarity beforeExecution
  have under : HasLeaf (.executable ⟨"P1"⟩) 1 executedOrComplete :=
    .any (List.mem_cons_self ..) (.not (.here rfl))
  have before : (executable ⟨"P1"⟩).OpenLeaf (executed []) := rfl
  have after : ¬(executable ⟨"P1"⟩).OpenLeaf (executed [⟨"P1"⟩]) := by
    rw [OpenLeaf]
    decide
  have opened : executedOrComplete.evaluate (executed []) = true := by decide
  have closed : beforeExecution.evaluate (executed [⟨"P1"⟩]) = false := by decide
  have same : executedOrComplete.Throughout
      (SameAnswer (executed [⟨"P1"⟩]) (executed [⟨"P1"⟩, ⟨"P2"⟩])) := by
    have nodes : executedOrComplete.walk = [executedOrComplete, .not (.executable ⟨"P1"⟩),
      .executable ⟨"P1"⟩, .feedbackCompleted ⟨"D1"⟩] := by cbv
    rw [Throughout, nodes]
    simp [executedOrComplete, SameAnswer, executed]
  have plain : beforeExecution.Throughout fun node => ¬node.IsNegation := by
    have nodes : beforeExecution.walk =
      [beforeExecution, .executable ⟨"P1"⟩, .feedbackCompleted ⟨"D1"⟩] := by cbv
    rw [Throughout, nodes]
    simp [beforeExecution, IsNegation]
  have more : (executed [⟨"P1"⟩]).MoreExecuted (executed [⟨"P1"⟩, ⟨"P2"⟩]) := by
    refine ⟨fun process first => ?_, rfl, rfl⟩
    have same : process = ⟨"P1"⟩ := by simpa [executed] using first
    simp [executed, same]
  exact ⟨under, (leaves _ _ under _).mpr before, (leaves _ _ under _).not.mpr after,
    favours_executedOrComplete, opened, stays _ _ favours_executedOrComplete opened,
    depends _ _ same, closed, closes plain _ _ more closed⟩

end Precondition

end ProcessFlow
