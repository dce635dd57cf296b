import ProcessFlow.Collection.OrderedMap
import ProcessFlow.Identifier
import ProcessFlow.Number.Shortest

/-! # Plans

A plan is what a simulated project went through: an initial state and the transitions from one state
to the next. A transition records which processes held resources during the step. In a valid plan
every time is a finite number and none is less than the one before it.
-/

namespace ProcessFlow

/-- The resources that a process holds during a step, with the amount of each. -/
structure Assignment where
  resources : OrderedMap String Binary64
deriving DecidableEq

/-- A moment of a simulated project: its business time, and how often each process has completed. -/
structure ProjectState where
  time : Binary64
  completionCounts : OrderedMap ProcessId Nat
deriving DecidableEq

/-- How often a process has completed, which is never for a process without an entry. -/
def ProjectState.completions (state : ProjectState) (process : ProcessId) : Nat :=
  state.completionCounts.getD process 0

/-- The processes that hold resources during a step. -/
abbrev Allocation := OrderedMap ProcessId Assignment

structure Transition where
  allocation : Allocation
  next : ProjectState
deriving DecidableEq

/-- An initial state and the steps from it, in order. -/
structure Plan where
  initial : ProjectState
  transitions : List Transition
deriving DecidableEq

/-- What is wrong with the times of a plan. States are numbered from zero, the initial one. -/
inductive PlanError where
  | timeDecreases (index : Nat) (previous next : Binary64)
  | invalidTime (index : Nat) (time : Binary64)
deriving DecidableEq

def PlanError.message : PlanError → String
  | .timeDecreases index previous next =>
    "Time decreases at transition " ++ toString index ++ ": " ++ previous.text ++ " -> " ++ next.text
  | .invalidTime index time =>
    "Invalid time at transition " ++ toString index ++ ": " ++ time.text

namespace Plan

/-- Check the times of states that follow a time, numbered from `index` on. -/
def checkTimes (index : Nat) (previous : Binary64) : List Transition → Except PlanError Unit
  | [] => .ok ()
  | transition :: rest =>
    let time := transition.next.time
    if !time.isFinite then .error (.invalidTime index time)
    else if time.less previous then .error (.timeDecreases index previous time)
    else checkTimes (index + 1) time rest

/-- Check that every time is finite and that none decreases. -/
def validate (plan : Plan) : Except PlanError Unit :=
  if !plan.initial.time.isFinite then .error (.invalidTime 0 plan.initial.time)
  else checkTimes 1 plan.initial.time plan.transitions

def finalState (plan : Plan) : ProjectState :=
  match plan.transitions.getLast? with
  | some transition => transition.next
  | none => plan.initial

/-- Each transition with the state before it, in order. -/
def steps (plan : Plan) : List (ProjectState × Transition) :=
  (plan.initial :: plan.transitions.map Transition.next).zip plan.transitions

end Plan

end ProcessFlow
