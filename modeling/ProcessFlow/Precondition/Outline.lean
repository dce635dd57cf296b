import ProcessFlow.Precondition.Basic

/-! # Outlines of preconditions

An outline has one line for each node of a precondition, in pre-order, indented by the depth of the
node. The nodes of an outline are those of the walk.
-/

namespace ProcessFlow

namespace Precondition

/-- The line of a node, without its indentation. -/
def label : Precondition → String
  | .always => "true"
  | .executable target => "exec " ++ target.text
  | .feedbackCompleted source => "complete " ++ source.text
  | .allFeedbackCompleted context => "complete * (context " ++ context.text ++ ")"
  | .all _ => "and"
  | .any _ => "or"
  | .not _ => "not"

mutual

/-- The nodes of a precondition in pre-order, each with its depth, from the depth of the root on. -/
def levels (depth : Nat) : Precondition → List (Nat × Precondition)
  | .all children => (depth, .all children) :: levelsList (depth + 1) children
  | .any children => (depth, .any children) :: levelsList (depth + 1) children
  | .not child => (depth, .not child) :: child.levels (depth + 1)
  | leaf => [(depth, leaf)]

/-- The nodes of preconditions at one depth, one precondition after the other. -/
def levelsList (depth : Nat) : List Precondition → List (Nat × Precondition)
  | [] => []
  | child :: rest => child.levels depth ++ levelsList depth rest

end

/-- The line of a node, indented by two blanks for each level above it. -/
def outlineLine (level : Nat × Precondition) : String :=
  String.ofList (List.replicate (2 * level.1) ' ') ++ level.2.label

def outline (precondition : Precondition) : List String :=
  (precondition.levels 0).map outlineLine

theorem levels_eq (depth : Nat) (precondition : Precondition) :
    precondition.levels depth =
      (depth, precondition) :: levelsList (depth + 1) precondition.children := by
  cases precondition <;> simp [levels, levelsList, children]

theorem walkStack_append (left right : List Precondition) :
    walkStack (left ++ right) = walkStack left ++ walkStack right := by
  fun_induction walkStack left with
  | case1 => rfl
  | case2 node stack ih => simp [walkStack, ← ih]

mutual

theorem map_levels (depth : Nat) :
    (precondition : Precondition) →
      (precondition.levels depth).map Prod.snd = walkStack [precondition]
  | .all children | .any children => by
    simp [levels, walkStack, Precondition.children, map_levelsList (depth + 1) children]
  | .not child => by
    simp only [levels, walkStack, Precondition.children, List.map_cons, List.append_nil,
      map_levels (depth + 1) child]
  | .always | .executable _ | .feedbackCompleted _ | .allFeedbackCompleted _ => by
    simp [levels, walkStack, Precondition.children]

theorem map_levelsList (depth : Nat) :
    (children : List Precondition) →
      (levelsList depth children).map Prod.snd = walkStack children
  | [] => by simp [levelsList, walkStack]
  | child :: rest => by
    rw [levelsList, List.map_append, map_levels depth child, map_levelsList depth rest,
      ← walkStack_append, List.singleton_append]

end

/-- The nodes of the outline are those of the walk, in the same order. -/
theorem map_levels_zero (precondition : Precondition) :
    (precondition.levels 0).map Prod.snd = precondition.walk := map_levels 0 precondition

end Precondition

end ProcessFlow
