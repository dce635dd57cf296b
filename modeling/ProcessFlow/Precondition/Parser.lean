import ProcessFlow.Precondition.Printer

/-! # Reading preconditions

The language has the grammar

    precondition = [ disjunction ]
    disjunction  = conjunction ( "||" conjunction )*
    conjunction  = primary ( "&&" primary )*
    primary      = "(" precondition ")" | "!" precondition | "\true"
                 | "\exec(" name ")" | "\complete(" ( "*" | name ) ")"

in which `!` takes everything up to the next closing parenthesis, and a blank precondition is
`\true`. The tokens are read once from left to right. A reading holds the chain of operands that
is being read and, for each `(` and `!` still open, the chain around it. Where no step is possible
the reading says what it was waiting for.
-/

namespace ProcessFlow

/-- What a reading was waiting for where it had to stop. -/
inductive Expected where
  | endOfInput
  | closeParen
  | deliverable
  | process
  | primary
deriving DecidableEq

def Expected.message : Expected → String
  | .endOfInput => "end of input"
  | .closeParen => "')'"
  | .deliverable => "deliverable id or '*'"
  | .process => "process id"
  | .primary => "'(', '!', '\\complete(', '\\exec(' or '\\true'"

/-- A text that is no precondition: the text, the offset in bytes where reading stopped, and what
was expected there. -/
structure SyntaxError where
  input : String
  position : Nat
  expected : Expected
deriving DecidableEq

def SyntaxError.message (error : SyntaxError) : String :=
  "Syntax error at offset " ++ toString error.position ++ " in '" ++ error.input ++
    "': expected " ++ error.expected.message

/-- Operands read so far at one level, latest first: the conjunctions that an `||` has closed, and
the operands of the conjunction being read. -/
structure Chain where
  alternatives : List Precondition
  operands : List Precondition

namespace Chain

def start : Chain := ⟨[], []⟩

/-- Add an operand to the conjunction being read. -/
def add (chain : Chain) (operand : Precondition) : Chain :=
  { chain with operands := operand :: chain.operands }

/-- The conjunction of operands given latest first; one operand stands for itself. -/
def conjunction : List Precondition → Precondition
  | [operand] => operand
  | operands => .all operands.reverse

/-- The disjunction of alternatives given latest first; one alternative stands for itself. -/
def disjunction : List Precondition → Precondition
  | [alternative] => alternative
  | alternatives => .any alternatives.reverse

/-- Close the conjunction being read at an `||`. -/
def closeAlternative (chain : Chain) : Chain :=
  ⟨conjunction chain.operands :: chain.alternatives, []⟩

/-- The precondition that a level amounts to when nothing more is added. -/
def result (chain : Chain) : Precondition :=
  disjunction (conjunction chain.operands :: chain.alternatives)

end Chain

/-- What opened a level. -/
inductive Opener where
  | paren
  | bang
deriving DecidableEq

/-- Where a reading stands within its innermost level. -/
inductive Stage where
  /-- At the start of a level, which may stay blank. -/
  | start
  /-- After `&&` or `||`. -/
  | operand
  /-- After an operand. -/
  | operator
  /-- After `\exec(`. -/
  | execName
  /-- After `\complete(`. -/
  | completeName
  /-- Before the parenthesis that closes `\exec(` or `\complete(`. -/
  | callEnd (call : Precondition)

/-- The state of a reading: the stage, the chain of the innermost level, and for each open level
its opener and the chain around it, innermost first. -/
structure Reading where
  stage : Stage
  chain : Chain
  outer : List (Opener × Chain)

namespace Reading

def initial : Reading := ⟨.start, .start, []⟩

/-- Take in a complete operand. -/
def add (reading : Reading) (operand : Precondition) : Reading :=
  { reading with stage := .operator, chain := reading.chain.add operand }

/-- Begin a level inside the innermost one. -/
def descend (reading : Reading) (opener : Opener) : Reading :=
  ⟨.start, .start, (opener, reading.chain) :: reading.outer⟩

def openPrimary? (reading : Reading) : Token → Option Reading
  | .openParen => some (reading.descend .paren)
  | .bang => some (reading.descend .bang)
  | .always => some (reading.add .always)
  | .execOpen => some { reading with stage := .execName }
  | .completeOpen => some { reading with stage := .completeName }
  | _ => none

/-- What the innermost level amounts to if it ends here. -/
def result? (reading : Reading) : Option Precondition :=
  match reading.stage with
  | .start => some .always
  | .operator => some reading.chain.result
  | _ => none

/-- End levels that `!` opened, up to a parenthesis, which takes the result as an operand. -/
def closeParen? (result : Precondition) : List (Opener × Chain) → Option Reading
  | [] => none
  | (.paren, chain) :: outer => some ⟨.operator, chain.add result, outer⟩
  | (.bang, chain) :: outer => closeParen? (chain.add (.not result)).result outer

/-- End levels that `!` opened, and with them the text. -/
def finish? (result : Precondition) : List (Opener × Chain) → Option Precondition
  | [] => some result
  | (.paren, _) :: _ => none
  | (.bang, chain) :: outer => finish? (chain.add (.not result)).result outer

/-- The reading in which an operator may follow: after an operand as it is, and after a `!` without
operand with that `!` closed. -/
def beforeOperator? (reading : Reading) : Option Reading :=
  match reading.stage, reading.outer with
  | .operator, _ => some reading
  | .start, (.bang, chain) :: outer => some ⟨.operator, chain.add (.not .always), outer⟩
  | _, _ => none

/-- Go on with an operator, or with the end of a level. -/
def continue? (reading : Reading) : Token → Option Reading
  | .both => reading.beforeOperator?.map fun reading => { reading with stage := .operand }
  | .either => reading.beforeOperator?.map fun reading =>
      { reading with stage := .operand, chain := reading.chain.closeAlternative }
  | .closeParen => reading.result?.bind (closeParen? · reading.outer)
  | _ => none

/-- Read one token. The context is the process that `\complete(*)` refers to. -/
def step? (context : ProcessId) (reading : Reading) (token : Token) : Option Reading :=
  match reading.stage, token with
  | .start, _ => (reading.openPrimary? token).or (reading.continue? token)
  | .operand, _ => reading.openPrimary? token
  | .operator, _ => reading.continue? token
  | .execName, .name text =>
    some { reading with stage := .callEnd (.executable ⟨String.ofList text⟩) }
  | .completeName, .star =>
    some { reading with stage := .callEnd (.allFeedbackCompleted context) }
  | .completeName, .name text =>
    some { reading with stage := .callEnd (.feedbackCompleted ⟨String.ofList text⟩) }
  | .callEnd call, .closeParen => some (reading.add call)
  | _, _ => none

/-- What the reading waits for, as the message about a stop puts it. -/
def expected (reading : Reading) : Expected :=
  match reading.stage with
  | .operand => .primary
  | .execName => .process
  | .completeName => .deliverable
  | .callEnd _ => .closeParen
  | .start | .operator =>
    if reading.outer.any fun level => level.1 = .paren then .closeParen else .endOfInput

/-- Read the tokens of a text. An error comes with the text from the place where reading stopped;
`stop` is the text in which no more tokens were found. -/
def run (context : ProcessId) (stop : List Char) :
    Reading → List Lexeme → Except (List Char × Expected) Precondition
  | reading, [] =>
    if stop = [] then
      match reading.result?.bind (finish? · reading.outer) with
      | some precondition => .ok precondition
      | none => .error (stop, reading.expected)
    else .error (stop, reading.expected)
  | reading, lexeme :: rest =>
    match reading.step? context lexeme.token with
    | some next => run context stop next rest
    | none => .error (lexeme.text, reading.expected)

end Reading

/-- How many bytes characters take in UTF-8. -/
def utf8Length : List Char → Nat
  | [] => 0
  | head :: rest => head.utf8Size + utf8Length rest

namespace Precondition

def ofChars? (context : ProcessId) (text : List Char) :
    Except (List Char × Expected) Precondition :=
  let cut := cutTokens (skipBlank text)
  Reading.run context cut.2 .initial cut.1

/-- Read a precondition. The context is the process that `\complete(*)` refers to. -/
def parse? (context : ProcessId) (text : String) : Except SyntaxError Precondition :=
  match ofChars? context text.toList with
  | .ok precondition => .ok precondition
  | .error (rest, expected) =>
    .error ⟨text, utf8Length text.toList - utf8Length rest, expected⟩

end Precondition

end ProcessFlow
