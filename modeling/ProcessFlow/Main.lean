import ProcessFlow.CommandLine.Run

/-! # The program

The program reads its command line, runs the command on the disk, prints what the run has printed,
and explains a failure on the error stream.
-/

namespace ProcessFlow

def versionText : String := "pfd 0.1.0"

def helpText : String := String.intercalate "\n"
  ["Structural analysis for process-flow-diagram models",
    "",
    "Usage: pfd [OPTIONS] <COMMAND>",
    "",
    "Commands:",
    "  parse <TEXT> [--context <PROCESS>]",
    "      Parse a precondition expression and print its structure",
    "  check <TABLE>",
    "      Check a precondition table for syntax errors and cyclic references",
    "  timeline --plan <PLAN> --milestones <TABLE> [--group <GROUP>]",
    "      Show milestone start and end per group in business time",
    "  schedule --plan <PLAN> --milestones <TABLE> [--group <GROUP>] [--start <DAY>]",
    "      Show milestone start and end per group on the calendar",
    "  help [COMMAND]",
    "      Print this message",
    "",
    "Options:",
    "  -f, --format <FORMAT>  Output format: text or json",
    "  -v, --verbose          Enable debug logging",
    "      --config <FILE>    Project config file to use instead of `.pfd/config.toml`",
    "  -h, --help             Print this message",
    "  -V, --version          Print the version"]

def FileProblem.wording : FileProblem → String
  | .notFound => "No such file or directory"
  | .notADirectory => "Not a directory"
  | .isADirectory => "Is a directory"
  | .nameTooLong => "File name too long"
  | .nullInPath => "file name contained an unexpected NUL byte"
  | .invalidText => "stream did not contain valid UTF-8"
  | .other description => description

def Cause.wording : Cause → String
  | .message text => text
  | .file problem => problem.wording
  | .malformedJson => "the text is not JSON of the form expected"
  | .malformedToml => "the text is not TOML of the form expected"

def Failure.wording : Failure → String
  | .refused causes => String.intercalate ": " (causes.map Cause.wording)
  | .pastLastDay => CalendarError.pastLastDay.message

def Failure.exitStatus : Failure → UInt32
  | .refused _ => 1
  | .pastLastDay => 101

/-- The problem behind an error of the system. -/
def problemOfError : IO.Error → FileProblem
  | .noFileOrDirectory .. => .notFound
  | .inappropriateType _ 20 _ => .notADirectory
  | .inappropriateType _ 21 _ => .isADirectory
  | .invalidArgument _ 36 _ => .nameTooLong
  | error => .other (toString error)

/-- Find out what is at a path of the disk. Files are read under a shared lock, so a file whose
writer holds the lock is not seen in part. -/
def lookOnDisk (path : String) : IO (Except FileProblem FileEntry) := do
  try
    let handle ← IO.FS.Handle.mk path .read
    handle.lock false
    let bytes ← handle.readBinToEnd
    return .ok (.file (decodeUtf8 bytes))
  catch error =>
    match problemOfError error with
    | .isADirectory => return .ok .directory
    | problem => return .error problem

def currentDirectory? : IO (Option String) := do
  try return some (← IO.currentDir).toString
  catch _ => return none

def userConfigPath? : IO (Option String) := do
  let base ← match ← IO.getEnv "XDG_CONFIG_HOME" with
    | some path =>
      if path.startsWith "/" then pure (some path) else homeConfig?
    | none => homeConfig?
  return base.map fun path => path ++ "/pfd-analyzer/config.toml"
where
  /-- The directory for configurations in the user's home. -/
  homeConfig? : IO (Option String) := do
    return ((← IO.getEnv "HOME").filter (· ≠ "")).map fun home => home ++ "/.config"

def surroundingsOnDisk : IO (Surroundings IO) := do
  return ⟨lookOnDisk, ← currentDirectory?, ← userConfigPath?, ← IO.getEnv "PFD_CONFIG"⟩

def giveAnswer (answer : UsageAnswer) : IO UInt32 := do
  match answer with
  | .help => IO.println helpText
  | .version => IO.println versionText
  | .nothingAsked => IO.eprintln helpText
  | problem => IO.eprintln ("error: " ++ problem.message ++ "\n\nFor more information, try '--help'.")
  return answer.exitStatus.toUInt32

/-- Print what a run has printed, and explain its failure. A run that is logged also says on the error
stream that it has succeeded. -/
def giveOutcome (verbose : Bool) (outcome : Outcome) : IO UInt32 := do
  IO.print outcome.text
  match outcome.failure with
  | none =>
    if verbose then IO.eprintln "debug: command completed successfully"
    return 0
  | some failure =>
    IO.eprintln ("Error: " ++ failure.wording)
    return failure.exitStatus

end ProcessFlow

open ProcessFlow in
/-- Run the program on the words of its command line. -/
def main (words : List String) : IO UInt32 := do
  let surroundings ← surroundingsOnDisk
  match Invocation.parse? surroundings.projectConfig words with
  | .error answer => giveAnswer answer
  | .ok invocation => giveOutcome invocation.verbose (← surroundings.run invocation)
