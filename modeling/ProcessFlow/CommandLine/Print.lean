import ProcessFlow.Config
import ProcessFlow.Document.Precondition
import ProcessFlow.Document.Report
import ProcessFlow.Graph.Topological
import ProcessFlow.Precondition.Outline

/-! # What the commands print -/

namespace ProcessFlow

def printedRow (columns : List String) : String := String.intercalate "\t" columns

def printedOption {α : Type} (print : α → String) (value : Option α) : String :=
  (value.map print).getD "-"

def Precondition.printed (precondition : Precondition) : OutputFormat → List String
  | .json => [precondition.toJson.text]
  | .text => precondition.text :: precondition.outline

namespace CheckReport

def printed (report : CheckReport) : OutputFormat → List String
  | .json => [report.toJson.text]
  | .text =>
    if report.isClean then
      [toString report.preconditions.size ++ " preconditions checked, no problems found"]
    else report.problems.map Problem.message

/-- What a check fails with, if it has found problems. -/
def verdict? (report : CheckReport) : Option String :=
  if report.isClean then none
  else
    let cyclic := report.problems.filter Problem.isCyclic
    some (toString report.problems.length ++ " problem(s) found (" ++ toString cyclic.length ++
      " cyclic reference(s))")

end CheckReport

/-- The milestones of a group's timeline in the order of their dependencies, and those without such
an order last. -/
def MilestoneTable.inOrder (table : MilestoneTable) (group : GroupId) (timeline : GroupTimeline) :
    List MilestoneId :=
  let ordered := ((table.dependencyGraph group).topologicalSort.getD []).filter (· ∈ timeline)
  ordered ++ timeline.keys.filter (· ∉ ordered)

def TimelineItem.printedRow (milestone : MilestoneId) (item : TimelineItem) : String :=
  ProcessFlow.printedRow
    [milestone.text, printedOption Binary64.text item.start, printedOption Binary64.text item.finish]

def GroupTimeline.printed (table : MilestoneTable) (group : GroupId) (timeline : GroupTimeline) :
    List String :=
  ("Group " ++ group.text ++ " (" ++ toString timeline.size ++ " milestones):") ::
    printedRow ["MILESTONE", "START", "END"] ::
    (table.inOrder group timeline).filterMap (fun milestone =>
      (timeline.get? milestone).map (TimelineItem.printedRow milestone)) ++ [""]

def Timeline.printed (timeline : Timeline) (table : MilestoneTable) : OutputFormat → List String
  | .json => [timeline.toJson.text]
  | .text =>
    if timeline.isEmpty then ["No groups tracked."]
    else timeline.entries.flatMap fun (group, items) => GroupTimeline.printed table group items

def ScheduleRow.printedRow (row : ScheduleRow) : String :=
  ProcessFlow.printedRow
    [row.group.text, row.milestone.text, printedOption DateTime.minuteText row.start,
      printedOption DateTime.minuteText row.finish]

def printedSchedule (rows : List ScheduleRow) : OutputFormat → List String
  | .json => [(Json.array (rows.map ScheduleRow.toJson)).text]
  | .text => printedRow ["GROUP", "MILESTONE", "START", "END"] :: rows.map ScheduleRow.printedRow

end ProcessFlow
