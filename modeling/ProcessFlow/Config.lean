import ProcessFlow.Calendar.BusinessCalendar

/-! # Configuration

A project has a working calendar and perhaps a start day; a user has a preferred form of output. A
calendar under which no business time has a place is refused.
-/

namespace ProcessFlow

/-- The forms of output: text for people, or JSON. -/
inductive OutputFormat where
  | text
  | json
deriving DecidableEq, Inhabited

def OutputFormat.word : OutputFormat → String
  | .text => "text"
  | .json => "json"

def OutputFormat.ofWord? (word : String) : Option OutputFormat :=
  [OutputFormat.text, .json].find? fun format => format.word = word

structure GlobalConfig where
  defaultFormat : OutputFormat
deriving DecidableEq

/-- The configuration of users who have written none. -/
def GlobalConfig.standard : GlobalConfig := ⟨.text⟩

structure ProjectConfig where
  calendar : WorkCalendar
  /-- Business time zero opens the first business day on or after this one. -/
  projectStart : Option Day

namespace ProjectConfig

/-- The configuration of projects that have none of their own. -/
def standard : ProjectConfig := ⟨.standard, none⟩

end ProjectConfig

/-- Why a calendar is refused. -/
inductive ConfigError where
  | noWorkdays
  /-- The business day closes when it opens, or before. -/
  | closesBeforeOpening (hours : BusinessHours)
deriving DecidableEq

def ConfigError.message (error : ConfigError) : String :=
  "Invalid configuration: " ++
    match error with
    | .noWorkdays => "calendar.workdays must name at least one weekday"
    | .closesBeforeOpening hours =>
      "calendar.close (" ++ hours.closing.text ++ ") must be after calendar.open (" ++
        hours.opening.text ++ ")"

namespace ProjectConfig

/-- Refuse a calendar without workdays, or one that closes no later than it opens. -/
def validate (config : ProjectConfig) : Except ConfigError Unit :=
  if config.calendar.workdays.isEmpty then .error .noWorkdays
  else if config.calendar.hours.closing ≤ config.calendar.hours.opening then
    .error (.closesBeforeOpening config.calendar.hours)
  else .ok ()

def hoursLabel (config : ProjectConfig) : String := config.calendar.hours.text

end ProjectConfig

end ProcessFlow
