import ProcessFlow.Calendar.Day
import ProcessFlow.CommandLine.Argument
import ProcessFlow.CommandLine.Usage
import ProcessFlow.Config
import ProcessFlow.Identifier

/-! # Reading a command line

The words of a level are read from left to right. An argument whose value may stand in the next word
is left pending, and is settled when the next argument begins or the words end; only then is its
value looked at. A word that has no place is refused before anything that is pending.
-/

namespace ProcessFlow

/-- What has been given on one level of a command line. -/
structure Given where
  format : Option OutputFormat
  verbose : Bool
  config : Option String
  context : Option ProcessId
  plan : Option String
  milestones : Option String
  group : Option GroupId
  start : Option Day
  text : Option String
  table : Option String
deriving DecidableEq

namespace Given

def nothing : Given := ⟨none, false, none, none, none, none, none, none, none, none⟩

/-- A value for an argument that can be given once only. The first value counts against a second
one before that is looked at. -/
def once {α : Type} (earlier : Option α) (value : Except UsageAnswer α) :
    Except UsageAnswer (Option α) :=
  match earlier with
  | some _ => .error .repeatedArgument
  | none => value.map some

/-- A path, which is not empty. -/
def path? (text : String) : Except UsageAnswer String :=
  if text = "" then .error .invalidValue else .ok text

def format? (text : String) : Except UsageAnswer OutputFormat :=
  match OutputFormat.ofWord? text with
  | some format => .ok format
  | none => .error .invalidValue

def ident? (kind : IdKind) (text : String) : Except UsageAnswer (Ident kind) :=
  (Ident.parse? kind text).mapError fun _ => .malformedValue

def day? (text : String) : Except UsageAnswer Day :=
  match Day.parse? text with
  | some day => .ok day
  | none => .error .malformedValue

def setValue (given : Given) (argument : Argument) (text : String) : Except UsageAnswer Given :=
  match argument with
  | .format => (once given.format (format? text)).map fun format => { given with format }
  | .config => (once given.config (path? text)).map fun config => { given with config }
  | .context =>
    (once given.context (ident? .process text)).map fun context => { given with context }
  | .plan => (once given.plan (path? text)).map fun plan => { given with plan }
  | .milestones =>
    (once given.milestones (path? text)).map fun milestones => { given with milestones }
  | .group => (once given.group (ident? .group text)).map fun group => { given with group }
  | .start => (once given.start (day? text)).map fun start => { given with start }
  | .text => (once given.text (.ok text)).map fun text => { given with text }
  | .table => (once given.table (path? text)).map fun table => { given with table }
  | .verbose | .help | .version => .error .unwantedValue

/-- Take in an argument, with its value if it has one. -/
def set (given : Given) (argument : Argument) (value : Option String) : Except UsageAnswer Given :=
  match argument with
  | .help => .error .help
  | .version => .error .version
  | .verbose => if given.verbose then .error .repeatedArgument else .ok { given with verbose := true }
  | argument =>
    match value with
    | none => .error .invalidValue
    | some text => given.setValue argument text

end Given

/-- An argument that is not settled yet, with its value if it has been met. -/
structure Pending where
  argument : Argument
  value : Option String
deriving DecidableEq

/-- The state of reading the words of a level. -/
structure LevelReading where
  given : Given
  pending : Option Pending
  /-- The arguments still to be given by their place. -/
  places : List Argument
  /-- Whether every word counts by its place now. -/
  literal : Bool
deriving DecidableEq

namespace LevelReading

/-- A reading that has seen no words of a level. -/
def initial (level : Level) : LevelReading := ⟨.nothing, none, level.places, false⟩

/-- Whether the next word may be the value of an option. -/
def awaitsValue (reading : LevelReading) : Bool :=
  !reading.literal && reading.pending.any fun pending => pending.value.isNone

def settle (reading : LevelReading) : Except UsageAnswer LevelReading :=
  match reading.pending with
  | none => .ok reading
  | some pending =>
    (reading.given.set pending.argument pending.value).map fun given =>
      { reading with given, pending := none }

/-- Take in an argument with all that belongs to it. -/
def add (reading : LevelReading) (argument : Argument) (value : Option String) :
    Except UsageAnswer LevelReading := do
  let reading ← reading.settle
  let given ← reading.given.set argument value
  return { reading with given }

/-- Begin an argument that is settled later. -/
def postpone (reading : LevelReading) (argument : Argument) (value : Option String) :
    Except UsageAnswer LevelReading := do
  let reading ← reading.settle
  return { reading with pending := some ⟨argument, value⟩ }

def readLong (reading : LevelReading) (level : Level) (name : String) (value : Option String) :
    Except UsageAnswer LevelReading :=
  match level.optionNamed? name with
  | none => .error .unknownArgument
  | some argument =>
    match argument.takesValue, value with
    | true, some _ => reading.add argument value
    | true, none => reading.postpone argument none
    | false, some _ => .error .unwantedValue
    | false, none => reading.add argument none

/-- Read options by their letters. -/
def readShort (reading : LevelReading) (level : Level) :
    List Char → Except UsageAnswer LevelReading
  | [] => .ok reading
  | letter :: rest =>
    match level.optionLettered? letter with
    | none => .error .unknownArgument
    | some argument =>
      if argument.takesValue then
        match rest with
        | [] => reading.postpone argument none
        | '=' :: value => reading.add argument (some (String.ofList value))
        | value => reading.add argument (some (String.ofList value))
      else
        match reading.add argument none with
        | .error answer => .error answer
        | .ok reading => reading.readShort level rest

def misplaced (reading : LevelReading) (level : Level) (word : String) : UsageAnswer :=
  match level with
  | .top => if reading.literal && isCommandWord word then .unknownArgument else .unknownCommand
  | .verb _ => .unknownArgument

def readPlaced (reading : LevelReading) (level : Level) (word : String) :
    Except UsageAnswer LevelReading :=
  match reading.places with
  | [] => .error (reading.misplaced level word)
  | argument :: places =>
    (reading.postpone argument (some word)).map fun reading => { reading with places }

/-- Read a word that names no command. -/
def readWord (level : Level) (reading : LevelReading) (word : String) :
    Except UsageAnswer LevelReading :=
  if reading.literal then reading.readPlaced level word
  else
    match WordShape.of word with
    | .separator => .ok { reading with literal := true }
    | .long name value => reading.readLong level name value
    | .short letters => reading.readShort level letters
    | .plain =>
      match reading.pending with
      | some ⟨argument, none⟩ => .ok { reading with pending := some ⟨argument, some word⟩ }
      | _ => reading.readPlaced level word

/-- What a level has given when its words end. The project configuration that the environment names
is looked at if the level names none. -/
def finish (reading : LevelReading) (environment : Option String) : Except UsageAnswer Given := do
  let given := (← reading.settle).given
  if given.config.isNone && environment = some "" then throw .invalidValue
  return given

end LevelReading

end ProcessFlow
