/-! # Answers about usage -/

namespace ProcessFlow

/-- What a command line that asks for nothing to be done is answered with. -/
inductive UsageAnswer where
  /-- Help was asked for. -/
  | help
  /-- The version was asked for. -/
  | version
  /-- Nothing was asked for. -/
  | nothingAsked
  /-- There are options, but no command. -/
  | missingCommand
  | unknownCommand
  /-- An option or a word that has no place. -/
  | unknownArgument
  /-- Something that the command needs is not given. -/
  | missingArgument
  /-- An option without its value, with an empty value, or with none of its choices. -/
  | invalidValue
  /-- A value that is no identifier or no day where there has to be one. -/
  | malformedValue
  /-- An option given twice. -/
  | repeatedArgument
  /-- A value for an option that takes none. -/
  | unwantedValue
deriving DecidableEq

namespace UsageAnswer

def isWanted : UsageAnswer → Bool
  | .help | .version => true
  | _ => false

def exitStatus (answer : UsageAnswer) : Nat := if answer.isWanted then 0 else 2

def message : UsageAnswer → String
  | .help | .version => ""
  | .nothingAsked | .missingCommand => "a command is required"
  | .unknownCommand => "there is no such command"
  | .unknownArgument => "unexpected argument"
  | .missingArgument => "a required argument is missing"
  | .invalidValue => "a value is missing, or none of its choices"
  | .malformedValue => "malformed value"
  | .repeatedArgument => "an option cannot be used twice"
  | .unwantedValue => "unexpected value for an option that takes none"

end UsageAnswer

end ProcessFlow
