import ProcessFlow.Graph.Basic
import ProcessFlow.Identifier

/-! # Milestones

A milestone is reached through the work of its processes. Each row of a milestone table names the
milestone, its processes, the milestones that may start only after it, and the groups that track it.
Within a group the milestones and their successors form a dependency graph.
-/

namespace ProcessFlow

/-- One row of the milestone table; the last two columns hold identifiers between commas. -/
structure MilestoneRow where
  id : MilestoneId
  processes : List ProcessId
  successors : String
  groups : String
deriving DecidableEq

structure Milestone where
  id : MilestoneId
  processes : OrderedSet ProcessId
  successors : OrderedSet MilestoneId
  groups : OrderedSet GroupId
deriving DecidableEq

/-- The columns that hold identifiers between commas. -/
inductive MilestoneColumn where
  | successors
  | groups
deriving DecidableEq

def MilestoneColumn.name : MilestoneColumn → String
  | .successors => "successors"
  | .groups => "groups"

/-- What is wrong with a milestone table. -/
inductive MilestoneError where
  | duplicate (milestone : MilestoneId)
  | invalidColumn (milestone : MilestoneId) (column : MilestoneColumn) (cause : IdError)
deriving DecidableEq

namespace MilestoneError

def message : MilestoneError → String
  | .duplicate milestone => "Duplicate milestone: " ++ milestone.text
  | .invalidColumn milestone column cause =>
    "Invalid " ++ column.name ++ " column for milestone " ++ milestone.text ++ ": " ++ cause.message

/-- The messages of an error and of what caused it, outermost first. -/
def chain (error : MilestoneError) : List String :=
  match error with
  | .duplicate _ => [error.message]
  | .invalidColumn _ _ cause => [error.message, cause.message]

end MilestoneError

namespace Milestone

def readColumn? (kind : IdKind) (milestone : MilestoneId) (column : MilestoneColumn)
    (text : String) : Except MilestoneError (OrderedSet (Ident kind)) :=
  match Ident.parseList? kind text with
  | .ok ids => .ok (.ofList ids)
  | .error cause => .error (.invalidColumn milestone column cause)

def ofRow? (row : MilestoneRow) : Except MilestoneError Milestone := do
  let successors ← readColumn? .milestone row.id .successors row.successors
  let groups ← readColumn? .group row.id .groups row.groups
  return ⟨row.id, .ofList row.processes, successors, groups⟩

def isTrackedBy (milestone : Milestone) (group : GroupId) : Bool := group ∈ milestone.groups

end Milestone

/-- The milestones of a project, each stored under its own identifier. -/
structure MilestoneTable where
  milestones : OrderedMap MilestoneId Milestone
  keyed : ∀ id milestone, milestones.get? id = some milestone → milestone.id = id

namespace MilestoneTable

def empty : MilestoneTable := ⟨∅, fun _ _ found => by cases found⟩

instance : Inhabited MilestoneTable := ⟨empty⟩

/-- Store a milestone, over the one of the same identifier. -/
def insert (table : MilestoneTable) (milestone : Milestone) : MilestoneTable where
  milestones := table.milestones.insert milestone.id milestone
  keyed id other found := by
    rw [OrderedMap.get?_insert] at found
    split at found
    · rename_i same
      cases found
      exact same.symm
    · exact table.keyed id other found

def addRow? (table : MilestoneTable) (row : MilestoneRow) :
    Except MilestoneError MilestoneTable := do
  let milestone ← Milestone.ofRow? row
  if milestone.id ∈ table.milestones then throw (.duplicate milestone.id)
  return table.insert milestone

/-- The table of rows, or the error of the first row that does not fit. -/
def ofRows? (rows : List MilestoneRow) : Except MilestoneError MilestoneTable :=
  rows.foldlM addRow? empty

def get? (table : MilestoneTable) (id : MilestoneId) : Option Milestone := table.milestones.get? id

def size (table : MilestoneTable) : Nat := table.milestones.size

def isEmpty (table : MilestoneTable) : Bool := table.milestones.isEmpty

/-- The milestones in the order of their identifiers. -/
def toList (table : MilestoneTable) : List Milestone := table.milestones.values

def groups (table : MilestoneTable) : OrderedSet GroupId :=
  .ofList (table.toList.flatMap fun milestone => milestone.groups.toList)

def inGroup (table : MilestoneTable) (group : GroupId) : List Milestone :=
  table.toList.filter (·.isTrackedBy group)

/-- The milestones that a group tracks, with an edge to each successor. Edges to milestones that
the group does not track dangle. -/
def dependencyGraph (table : MilestoneTable) (group : GroupId) : Graph MilestoneId :=
  let tracked := table.inGroup group
  .ofLists (tracked.map Milestone.id)
    (tracked.flatMap fun milestone =>
      milestone.successors.toList.map fun successor => ⟨milestone.id, successor⟩)

end MilestoneTable

end ProcessFlow
