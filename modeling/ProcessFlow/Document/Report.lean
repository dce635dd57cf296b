import ProcessFlow.Document.Identifier
import ProcessFlow.Json.Printer
import ProcessFlow.Precondition.Table
import ProcessFlow.Schedule

/-! # Reports as documents -/

namespace ProcessFlow

/-- A problem as a record with its fields in alphabetical order. -/
def Problem.toJson : Problem → Json
  | .malformed process error => .record
      [("expected", .ofText error.expected.message), ("kind", .ofText "syntax"),
        ("position", .ofNat error.position), ("process", process.toJson),
        ("text", .ofText error.input)]
  | .duplicate process =>
    .record [("kind", .ofText "duplicate_process"), ("process", process.toJson)]
  | .unknown process target => .record
      [("kind", .ofText "unknown_process"), ("process", process.toJson),
        ("target", target.toJson)]
  | .cyclic cycle => .record
      [("cycle", .array (cycle.map Ident.toJson)), ("kind", .ofText "cyclic_reference")]

/-- The number of preconditions that parse, and the problems. -/
def CheckReport.toJson (report : CheckReport) : Json := .record
  [("problems", .array (report.problems.map Problem.toJson)),
    ("processes", .ofNat report.preconditions.size)]

def timeToJson (time : Option Binary64) : Json := (time.map Json.ofDouble).getD .null

def TimelineItem.toJson (item : TimelineItem) : Json :=
  .record [("start", timeToJson item.start), ("end", timeToJson item.finish)]

def GroupTimeline.toJson (timeline : GroupTimeline) : Json :=
  .record (timeline.entries.map fun (milestone, item) => (milestone.text, item.toJson))

def Timeline.toJson (timeline : Timeline) : Json :=
  .record (timeline.entries.map fun (group, items) => (group.text, GroupTimeline.toJson items))

def momentToJson (moment : Option DateTime) : Json :=
  (moment.map fun moment => Json.ofText moment.text).getD .null

def ScheduleRow.toJson (row : ScheduleRow) : Json := .record
  [("group", row.group.toJson), ("milestone", row.milestone.toJson),
    ("start", momentToJson row.start), ("end", momentToJson row.finish)]

end ProcessFlow
