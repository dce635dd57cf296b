import ProcessFlow.Calendar.BusinessTime
import ProcessFlow.Files.Entry

/-! # Failures of a run -/

namespace ProcessFlow

/-- One link in the explanation of a failure. -/
inductive Cause where
  | message (text : String)
  | file (problem : FileProblem)
  /-- The text is no JSON, or not of the form wanted. -/
  | malformedJson
  /-- The text is no TOML, or not of the form wanted. -/
  | malformedToml
deriving DecidableEq

inductive Failure where
  /-- Something is wrong with what was given; the explanation begins with what was being done. -/
  | refused (causes : List Cause)
  /-- There are too few business days before the last representable day. -/
  | pastLastDay
deriving DecidableEq

namespace Failure

/-- What was being done, and what was wrong. -/
def during (task : String) (cause : Cause) : Failure := .refused [.message task, cause]

def ofMessages (messages : List String) : Failure := .refused (messages.map .message)

/-- What was being done, and what messages explain. -/
def duringMessages (task : String) (messages : List String) : Failure :=
  ofMessages (task :: messages)

def ofCalendar : CalendarError → Failure
  | .pastLastDay => .pastLastDay
  | error => ofMessages [error.message]

end Failure

end ProcessFlow
