import ProcessFlow.Calendar.BusinessCalendar
import ProcessFlow.Calendar.BusinessDay
import ProcessFlow.Calendar.BusinessTime
import ProcessFlow.Calendar.DateTime
import ProcessFlow.Calendar.Day
import ProcessFlow.Calendar.Duration
import ProcessFlow.Calendar.StepCache
import ProcessFlow.Calendar.TimeOfDay
import ProcessFlow.Calendar.Weekday
import ProcessFlow.Collection.OrderedMap
import ProcessFlow.Collection.OrderedSet
import ProcessFlow.CommandLine.Argument
import ProcessFlow.CommandLine.Invocation
import ProcessFlow.CommandLine.Print
import ProcessFlow.CommandLine.Reading
import ProcessFlow.CommandLine.Run
import ProcessFlow.CommandLine.Setup
import ProcessFlow.CommandLine.Usage
import ProcessFlow.Config
import ProcessFlow.Document.Calendar
import ProcessFlow.Document.Config
import ProcessFlow.Document.Identifier
import ProcessFlow.Document.Plan
import ProcessFlow.Document.Precondition
import ProcessFlow.Document.Report
import ProcessFlow.Document.Table
import ProcessFlow.Failure
import ProcessFlow.Files.Entry
import ProcessFlow.Files.Path
import ProcessFlow.Files.Rows
import ProcessFlow.Files.Tree
import ProcessFlow.Graph.Basic
import ProcessFlow.Graph.Circuit
import ProcessFlow.Graph.Reach
import ProcessFlow.Graph.Topological
import ProcessFlow.Identifier
import ProcessFlow.Json.Basic
import ProcessFlow.Json.Decode
import ProcessFlow.Json.Number
import ProcessFlow.Json.Parser
import ProcessFlow.Json.Printer
import ProcessFlow.Json.Token
import ProcessFlow.Main
import ProcessFlow.Milestone
import ProcessFlow.Number.Binary64
import ProcessFlow.Number.Shortest
import ProcessFlow.Plan
import ProcessFlow.Precondition.Basic
import ProcessFlow.Precondition.Outline
import ProcessFlow.Precondition.Parser
import ProcessFlow.Precondition.Printer
import ProcessFlow.Precondition.Table
import ProcessFlow.Precondition.Token
import ProcessFlow.Proofs.Calendar.BusinessDay
import ProcessFlow.Proofs.Calendar.BusinessHours
import ProcessFlow.Proofs.Calendar.BusinessTime
import ProcessFlow.Proofs.Calendar.Chronology
import ProcessFlow.Proofs.Calendar.ClockSum
import ProcessFlow.Proofs.Calendar.DaySearch
import ProcessFlow.Proofs.Calendar.DaySteps
import ProcessFlow.Proofs.Calendar.History
import ProcessFlow.Proofs.Calendar.Memory
import ProcessFlow.Proofs.Calendar.TimeOfDay
import ProcessFlow.Proofs.Calendar.TimeText
import ProcessFlow.Proofs.Calendar.Week
import ProcessFlow.Proofs.Config
import ProcessFlow.Proofs.Files.Rows
import ProcessFlow.Proofs.Graph.Acyclic
import ProcessFlow.Proofs.Graph.Calls
import ProcessFlow.Proofs.Graph.Circuit
import ProcessFlow.Proofs.Graph.Components
import ProcessFlow.Proofs.Graph.Cycle
import ProcessFlow.Proofs.Graph.Dangling
import ProcessFlow.Proofs.Graph.Enumeration
import ProcessFlow.Proofs.Graph.Induced
import ProcessFlow.Proofs.Graph.LeastOrder
import ProcessFlow.Proofs.Graph.Reach
import ProcessFlow.Proofs.Graph.Topological
import ProcessFlow.Proofs.Identifier
import ProcessFlow.Proofs.IdentifierOrder
import ProcessFlow.Proofs.Json.Reading
import ProcessFlow.Proofs.Json.Token
import ProcessFlow.Proofs.Milestone
import ProcessFlow.Proofs.Number.Order
import ProcessFlow.Proofs.Number.Rounding
import ProcessFlow.Proofs.Number.Value
import ProcessFlow.Proofs.Precondition.Acceptance
import ProcessFlow.Proofs.Precondition.Completion
import ProcessFlow.Proofs.Precondition.Cursor
import ProcessFlow.Proofs.Precondition.Grammar
import ProcessFlow.Proofs.Precondition.Language
import ProcessFlow.Proofs.Precondition.Meaning
import ProcessFlow.Proofs.Precondition.Nodes
import ProcessFlow.Proofs.Precondition.Normal
import ProcessFlow.Proofs.Precondition.Outline
import ProcessFlow.Proofs.Precondition.Places
import ProcessFlow.Proofs.Precondition.Polarity
import ProcessFlow.Proofs.Precondition.Repair
import ProcessFlow.Proofs.Precondition.Report
import ProcessFlow.Proofs.Precondition.Representation
import ProcessFlow.Proofs.Precondition.RoundTrip
import ProcessFlow.Proofs.Precondition.Spelling
import ProcessFlow.Proofs.Precondition.Table
import ProcessFlow.Proofs.Precondition.Viability
import ProcessFlow.Proofs.Schedule
import ProcessFlow.Proofs.ScheduleHistory
import ProcessFlow.Proofs.Text.Blank
import ProcessFlow.Proofs.Text.Bytes
import ProcessFlow.Proofs.Text.Digits
import ProcessFlow.Proofs.Timeline.Group
import ProcessFlow.Proofs.Timeline.Listing
import ProcessFlow.Proofs.Timeline.Locality
import ProcessFlow.Proofs.Timeline.Overlap
import ProcessFlow.Proofs.Timeline.Pause
import ProcessFlow.Proofs.Timeline.Plan
import ProcessFlow.Proofs.Timeline.Reachability
import ProcessFlow.Proofs.Timeline.Removal
import ProcessFlow.Proofs.Timeline.Replay
import ProcessFlow.Proofs.Timeline.Table
import ProcessFlow.Proofs.Timeline.Trace
import ProcessFlow.Schedule
import ProcessFlow.Text.Blank
import ProcessFlow.Text.Digits
import ProcessFlow.Text.Front
import ProcessFlow.Text.Pieces
import ProcessFlow.Text.Utf8
import ProcessFlow.Timeline
import ProcessFlow.Toml.Parser
import ProcessFlow.Toml.Scalar
import ProcessFlow.Toml.Table
import ProcessFlow.Toml.Text
