import ProcessFlow.CommandLine.Invocation
import ProcessFlow.CommandLine.Print
import ProcessFlow.CommandLine.Setup
import ProcessFlow.Document.Plan
import ProcessFlow.Document.Table
import ProcessFlow.Files.Rows

/-! # Running commands

A run sets itself up, reads its inputs, and ends with the lines that it prints and perhaps a
failure. Only the lookup of files depends on where the run takes place.
-/

namespace ProcessFlow

/-- How a run ends. -/
structure Outcome where
  /-- The lines that are printed. -/
  lines : List String
  failure : Option Failure
deriving DecidableEq

namespace Outcome

/-- The end of a run that printed nothing before it failed, or printed all that was asked for. -/
def ofLines : Except Failure (List String) → Outcome
  | .ok lines => ⟨lines, none⟩
  | .error failure => ⟨[], some failure⟩

def text (outcome : Outcome) : String := String.join (outcome.lines.map fun line => line ++ "\n")

end Outcome

def planOf (path : String) (found : Except FileProblem FileEntry) : Except Failure Plan := do
  let plan ← readDocument Plan.ofJson? path found
  match plan.validate with
  | .ok _ => return plan
  | .error error => throw (.duringMessages ("Invalid plan: " ++ path) [error.message])

def milestoneTableOf (path : String) (found : Except FileProblem FileEntry) :
    Except Failure MilestoneTable := do
  let rows ← readTable MilestoneRow.ofJson? path found
  match MilestoneTable.ofRows? rows with
  | .ok table => return table
  | .error error => throw (.duringMessages ("Invalid milestone table: " ++ path) error.chain)

/-- The timelines that are wanted: those of all groups, or that of one group of the table. -/
def wantedTimeline (plan : Plan) (table : MilestoneTable) (group : Option GroupId) :
    Except Failure Timeline :=
  let built : Except TimelineError Timeline → Except Failure Timeline :=
    fun timeline => timeline.mapError fun error => .ofMessages error.chain
  match plan.checkForTimeline with
  | .error error => .error (.ofMessages error.chain)
  | .ok _ =>
    match group with
    | none => built (plan.timeline table)
    | some group =>
      if group ∈ table.groups then
        built ((plan.groupTimeline table group).map fun items => .ofList [(group, items)])
      else .error (.ofMessages ["Unknown group: " ++ group.text])

/-- The day that a project starts on: the one given, or else the configured one. -/
def startDay (start : Option Day) (project : ProjectConfig) : Except Failure Day :=
  match start <|> project.projectStart with
  | some day => .ok day
  | none => .error (.ofMessages
      ["No project start date. Pass --start or set project_start in .pfd/config.toml"])

def runParse (format : OutputFormat) (text : String) (context : ProcessId) : Outcome :=
  .ofLines (((Precondition.parse? context text).map fun precondition =>
    precondition.printed format).mapError fun error => .ofMessages [error.message])

def runCheck (format : OutputFormat) (rows : Except Failure (List PreconditionRow)) : Outcome :=
  match rows with
  | .error failure => ⟨[], some failure⟩
  | .ok rows =>
    let report := checkPreconditions rows
    ⟨report.printed format, report.verdict?.map fun verdict => .ofMessages [verdict]⟩

namespace Surroundings

variable {m : Type → Type} [Monad m]

def loadTimeline (surroundings : Surroundings m) (inputs : TimelineInputs) :
    ExceptT Failure m (MilestoneTable × Timeline) := do
  let plan ← surroundings.look inputs.plan
  let plan ← liftExcept (planOf inputs.plan plan)
  let table ← surroundings.look inputs.milestones
  let table ← liftExcept (milestoneTableOf inputs.milestones table)
  let timeline ← liftExcept (wantedTimeline plan table inputs.group)
  return (table, timeline)

/-- The schedule of inputs, by the calendar of the project. The start of the project has to be known
before the inputs are read. -/
def loadSchedule (surroundings : Surroundings m) (setup : Setup) (inputs : TimelineInputs)
    (start : Option Day) : ExceptT Failure m (List ScheduleRow) := do
  let start ← liftExcept (startDay start setup.project)
  let (_, timeline) ← surroundings.loadTimeline inputs
  let calendar := setup.project.calendar.toBusiness
  liftExcept ((calendar.schedule timeline start).mapError Failure.ofCalendar)

def runCommand (surroundings : Surroundings m) (setup : Setup) (format : OutputFormat) :
    Command → m Outcome
  | .parse text context => return runParse format text context
  | .check table => do
    return runCheck format (readTable PreconditionRow.ofJson? table (← surroundings.look table))
  | .timeline inputs => do
    let built ← (surroundings.loadTimeline inputs).run
    return .ofLines (built.map fun (table, timeline) => timeline.printed table format)
  | .schedule inputs start => do
    let rows ← (surroundings.loadSchedule setup inputs start).run
    return .ofLines (rows.map fun rows => printedSchedule rows format)

/-- Do what a command line asks for. -/
def run (surroundings : Surroundings m) (invocation : Invocation) : m Outcome := do
  match ← (surroundings.load invocation.config).run with
  | .error failure => return ⟨[], some failure⟩
  | .ok setup =>
    surroundings.runCommand setup (invocation.format.getD setup.user.defaultFormat)
      invocation.command

end Surroundings

end ProcessFlow
