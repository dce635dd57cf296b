import ProcessFlow.CommandLine.Reading

/-! # Invocations

A command line asks for one command. What is given after the command counts more than the same given
before it, and both count more than the environment.
-/

namespace ProcessFlow

/-- The files that a timeline is built from, and the one group that is wanted, if not all. -/
structure TimelineInputs where
  plan : String
  milestones : String
  group : Option GroupId
deriving DecidableEq

inductive Command where
  /-- Parse the text of a precondition and show its structure. -/
  | parse (text : String) (context : ProcessId)
  /-- Check a table of preconditions. -/
  | check (table : String)
  /-- Show the timelines of groups in business time. -/
  | timeline (inputs : TimelineInputs)
  /-- Show the timelines of groups on the calendar. -/
  | schedule (inputs : TimelineInputs) (start : Option Day)
deriving DecidableEq

/-- What a command line asks for. -/
structure Invocation where
  format : Option OutputFormat
  verbose : Bool
  /-- The file to use in the place of the project's configuration. -/
  config : Option String
  command : Command
deriving DecidableEq

/-- The process that owns a precondition for which none is named. -/
def standardContext : ProcessId := ⟨"self"⟩

/-- The inputs of a timeline, if all that are needed are given. -/
def Given.inputs? (given : Given) : Option TimelineInputs := do
  return ⟨← given.plan, ← given.milestones, given.group⟩

def Given.command? (given : Given) : Verb → Option Command
  | .parse => given.text.map fun text => .parse text (given.context.getD standardContext)
  | .check => given.table.map .check
  | .timeline => given.inputs?.map .timeline
  | .schedule => given.inputs?.map fun inputs => .schedule inputs given.start

namespace Invocation

/-- The answer to words after `help`. No command has commands of its own. -/
def answerHelp : List String → UsageAnswer
  | [] => .help
  | [topic] => if isCommandWord topic then .help else .unknownCommand
  | _ => .unknownCommand

def readCommand? (environment : Option String) (verb : Verb) (words : List String) :
    Except UsageAnswer (Given × Command) := do
  let reading ← words.foldlM (LevelReading.readWord (.verb verb)) (.initial (.verb verb))
  let given ← reading.finish environment
  match given.command? verb with
  | some command => return (given, command)
  | none => throw .missingArgument

/-- The invocation with a command, by what is given before and after it. -/
def of (environment : Option String) (before after : Given) (command : Command) : Invocation where
  format := after.format <|> before.format
  verbose := after.verbose || before.verbose
  config := after.config <|> before.config <|> environment
  command

def answerNone (environment : Option String) (given : Given) : UsageAnswer :=
  if given = .nothing ∧ environment = none then .nothingAsked else .missingCommand

/-- Go on reading words, up to the command and then those after it. -/
def readFrom? (environment : Option String) (reading : LevelReading) :
    List String → Except UsageAnswer Invocation
  | [] =>
    match reading.finish environment with
    | .error answer => .error answer
    | .ok given => .error (answerNone environment given)
  | word :: rest =>
    if !reading.literal && !reading.awaitsValue && word = helpWord then .error (answerHelp rest)
    else
      match if reading.literal || reading.awaitsValue then none else Verb.ofWord? word with
      | some verb => do
        let (after, command) ← readCommand? environment verb rest
        return of environment (← reading.finish environment) after command
      | none =>
        match LevelReading.readWord .top reading word with
        | .error answer => .error answer
        | .ok reading => readFrom? environment reading rest

/-- Read a command line. The environment may name a file to use in the place of the project's
configuration. -/
def parse? (environment : Option String) (words : List String) : Except UsageAnswer Invocation :=
  readFrom? environment (.initial .top) words

end Invocation

end ProcessFlow
