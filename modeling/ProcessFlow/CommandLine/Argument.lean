/-! # Commands, their arguments, and the words for them

A command line is a list of words. Options stand before the command or after it; an option of one
letter may stand with others in one word, and a value may be part of the word of its option.
-/

namespace ProcessFlow

inductive Verb where
  | parse
  | check
  | timeline
  | schedule
deriving DecidableEq

namespace Verb

def word : Verb → String
  | .parse => "parse"
  | .check => "check"
  | .timeline => "timeline"
  | .schedule => "schedule"

def ofWord? (word : String) : Option Verb :=
  [Verb.parse, .check, .timeline, .schedule].find? fun verb => verb.word = word

end Verb

def helpWord : String := "help"

/-- Whether a word may stand in the place of a command. -/
def isCommandWord (word : String) : Bool := word = helpWord || (Verb.ofWord? word).isSome

/-- What can be given on a command line. -/
inductive Argument where
  | format
  | verbose
  | config
  | help
  | version
  | context
  | plan
  | milestones
  | group
  | start
  /-- The text that `parse` takes, which has no name. -/
  | text
  /-- The table that `check` takes, which has no name. -/
  | table
deriving DecidableEq

namespace Argument

def name? : Argument → Option String
  | .format => some "format"
  | .verbose => some "verbose"
  | .config => some "config"
  | .help => some "help"
  | .version => some "version"
  | .context => some "context"
  | .plan => some "plan"
  | .milestones => some "milestones"
  | .group => some "group"
  | .start => some "start"
  | .text | .table => none

def letter? : Argument → Option Char
  | .format => some 'f'
  | .verbose => some 'v'
  | .help => some 'h'
  | .version => some 'V'
  | _ => none

def takesValue : Argument → Bool
  | .verbose | .help | .version => false
  | _ => true

end Argument

/-- Where words stand: before the command, or after it. -/
inductive Level where
  | top
  | verb (verb : Verb)
deriving DecidableEq

namespace Level

/-- The options that may stand anywhere. -/
def sharedOptions : List Argument := [.format, .verbose, .config, .help, .version]

/-- The options of a level beyond those that may stand anywhere. -/
def ownOptions : Level → List Argument
  | .top | .verb .check => []
  | .verb .parse => [.context]
  | .verb .timeline => [.plan, .milestones, .group]
  | .verb .schedule => [.plan, .milestones, .group, .start]

/-- The arguments of a level that are given by their place. -/
def places : Level → List Argument
  | .verb .parse => [.text]
  | .verb .check => [.table]
  | _ => []

def optionNamed? (level : Level) (name : String) : Option Argument :=
  (sharedOptions ++ level.ownOptions).find? fun argument => argument.name? = some name

def optionLettered? (level : Level) (letter : Char) : Option Argument :=
  (sharedOptions ++ level.ownOptions).find? fun argument => argument.letter? = some letter

end Level

inductive WordShape where
  /-- Two dashes, after which no word is an option. -/
  | separator
  /-- A long option, perhaps with its value after a `=`. -/
  | long (name : String) (value : Option String)
  /-- Options by their letters, the last perhaps with its value. -/
  | short (letters : List Char)
  | plain
deriving DecidableEq

def WordShape.of (word : String) : WordShape :=
  match word.toList with
  | ['-', '-'] => .separator
  | '-' :: '-' :: rest =>
    .long (String.ofList (rest.takeWhile (· ≠ '=')))
      (match rest.dropWhile (· ≠ '=') with
        | [] => none
        | _ :: value => some (String.ofList value))
  | '-' :: letter :: rest => .short (letter :: rest)
  | _ => .plain

end ProcessFlow
