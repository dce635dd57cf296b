import ProcessFlow.Identifier

/-! # Preconditions

A precondition gates when a process may execute. Its leaves ask three questions about the state of
the project; `all`, `any` and `not` combine them. The walk of a precondition visits its nodes in
pre-order, children from left to right.
-/

namespace ProcessFlow

/-- A gate on the execution of a process. -/
inductive Precondition where
  /-- Open at all times. -/
  | always
  /-- Open while the target has not executed yet. -/
  | executable (target : ProcessId)
  /-- Open once feedback from the source is complete. -/
  | feedbackCompleted (source : DeliverableId)
  /-- Open once every feedback source reachable from the context is complete. -/
  | allFeedbackCompleted (context : ProcessId)
  /-- Open when every child is open. -/
  | all (children : List Precondition)
  /-- Open when some child is open. -/
  | any (children : List Precondition)
  /-- Open when the child is closed. -/
  | not (child : Precondition)
deriving BEq, Inhabited

/-- The state of a project, as far as preconditions ask about it. -/
structure Circumstances where
  hasExecuted : ProcessId → Bool
  isFeedbackCompleted : DeliverableId → Bool
  areReachableSourcesCompleted : ProcessId → Bool

namespace Precondition

mutual

def nodeCount : Precondition → Nat
  | .always | .executable _ | .feedbackCompleted _ | .allFeedbackCompleted _ => 1
  | .all children | .any children => nodeCountList children + 1
  | .not child => child.nodeCount + 1

def nodeCountList : List Precondition → Nat
  | [] => 0
  | child :: rest => child.nodeCount + nodeCountList rest

end

def children : Precondition → List Precondition
  | .always | .executable _ | .feedbackCompleted _ | .allFeedbackCompleted _ => []
  | .all children | .any children => children
  | .not child => [child]

theorem nodeCount_eq (precondition : Precondition) :
    precondition.nodeCount = nodeCountList precondition.children + 1 := by
  cases precondition <;> simp [nodeCount, children, nodeCountList]

theorem nodeCountList_append (left right : List Precondition) :
    nodeCountList (left ++ right) = nodeCountList left + nodeCountList right := by
  induction left with
  | nil => simp [nodeCountList]
  | cons head rest ih => simp only [List.cons_append, nodeCountList, ih]; omega

/-- Visit the nodes of a stack of preconditions; the children of a node go on top of the stack. -/
def walkStack : List Precondition → List Precondition
  | [] => []
  | node :: stack => node :: walkStack (node.children ++ stack)
termination_by stack => nodeCountList stack
decreasing_by
  rw [nodeCountList_append, nodeCountList, nodeCount_eq]
  omega

/-- The nodes of a precondition, in pre-order. -/
def walk (precondition : Precondition) : List Precondition := walkStack [precondition]

/-- The processes whose execution the precondition waits on, in the order of the walk. -/
def executableTargets (precondition : Precondition) : List ProcessId :=
  precondition.walk.filterMap fun
    | .executable target => some target
    | _ => none

mutual

/-- Whether the gate is open. -/
def evaluate (now : Circumstances) : Precondition → Bool
  | .always => true
  | .executable target => !now.hasExecuted target
  | .feedbackCompleted source => now.isFeedbackCompleted source
  | .allFeedbackCompleted context => now.areReachableSourcesCompleted context
  | .all children => evaluateAll now children
  | .any children => evaluateAny now children
  | .not child => !child.evaluate now

def evaluateAll (now : Circumstances) : List Precondition → Bool
  | [] => true
  | child :: rest => child.evaluate now && evaluateAll now rest

def evaluateAny (now : Circumstances) : List Precondition → Bool
  | [] => false
  | child :: rest => child.evaluate now || evaluateAny now rest

end

theorem evaluateAll_eq (now : Circumstances) (children : List Precondition) :
    evaluateAll now children = children.all (evaluate now) := by
  induction children with
  | nil => rfl
  | cons child rest ih => simp [evaluateAll, ih]

theorem evaluateAny_eq (now : Circumstances) (children : List Precondition) :
    evaluateAny now children = children.any (evaluate now) := by
  induction children with
  | nil => rfl
  | cons child rest ih => simp [evaluateAny, ih]

end Precondition

end ProcessFlow
