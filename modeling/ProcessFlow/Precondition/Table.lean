import ProcessFlow.Graph.Circuit
import ProcessFlow.Precondition.Parser

/-! # Checking a table of preconditions

Each row of the table gives a process and the text of its precondition. The check reports rows that
repeat a process, texts that do not parse, references to processes without a row, and chains of
references that lead back to where they started.
-/

namespace ProcessFlow

/-- One row of the process table; a blank precondition is `\true`. -/
structure PreconditionRow where
  process : ProcessId
  precondition : String
deriving DecidableEq

/-- A defect of the process table. -/
inductive Problem where
  /-- The text of a row does not parse. -/
  | malformed (process : ProcessId) (error : SyntaxError)
  /-- An earlier row names the same process. -/
  | duplicate (process : ProcessId)
  /-- A precondition waits on a process without a row. -/
  | unknown (process target : ProcessId)
  /-- The preconditions of these processes wait on one another in turn. -/
  | cyclic (cycle : List ProcessId)
deriving DecidableEq

def Problem.message : Problem → String
  | .malformed process error =>
    process.text ++ ": syntax error at offset " ++ toString error.position ++ " in '" ++
      error.input ++ "': expected " ++ error.expected.message
  | .duplicate process => process.text ++ ": process appears more than once"
  | .unknown process target =>
    process.text ++ ": precondition refers to unknown process " ++ target.text
  | .cyclic cycle =>
    "cyclic precondition reference: " ++ String.intercalate " -> " (cycle.map Ident.text) ++
      " -> " ++ (cycle.head?.map Ident.text).getD ""

def Problem.isCyclic : Problem → Bool
  | .cyclic _ => true
  | _ => false

/-- The preconditions of a table and every problem found in it. -/
structure CheckReport where
  preconditions : OrderedMap ProcessId Precondition
  problems : List Problem

def CheckReport.isClean (report : CheckReport) : Bool := report.problems.isEmpty

/-- What the rows of a table have given so far: the processes named, the preconditions that parse,
and the problems of single rows, in the order of the rows. -/
structure TableReading where
  known : OrderedSet ProcessId
  preconditions : OrderedMap ProcessId Precondition
  problems : List Problem

namespace TableReading

def initial : TableReading := ⟨∅, ∅, []⟩

/-- Take in one row. A row for a process that is known already counts for nothing else. -/
def addRow (reading : TableReading) (row : PreconditionRow) : TableReading :=
  if row.process ∈ reading.known then
    { reading with problems := reading.problems ++ [.duplicate row.process] }
  else
    let known := reading.known.insert row.process
    match Precondition.parse? row.process row.precondition with
    | .ok precondition =>
      ⟨known, reading.preconditions.insert row.process precondition, reading.problems⟩
    | .error error =>
      ⟨known, reading.preconditions, reading.problems ++ [.malformed row.process error]⟩

def ofRows (rows : List PreconditionRow) : TableReading := rows.foldl addRow initial

/-- One problem for each reference to a process that no row names, in the order of the processes
and of their walks. -/
def unknownReferences (reading : TableReading) : List Problem :=
  reading.preconditions.entries.flatMap fun entry =>
    (entry.2.executableTargets.filter (· ∉ reading.known)).map (.unknown entry.1)

end TableReading

/-- The graph with an edge from each process to every process that its precondition waits on. -/
def referenceGraph (preconditions : OrderedMap ProcessId Precondition) : Graph ProcessId :=
  Graph.ofLists preconditions.keys
    (preconditions.entries.flatMap fun entry =>
      entry.2.executableTargets.map fun target => ⟨entry.1, target⟩)

/-- Read a table of preconditions and look for problems: first those of single rows, then the
references to unknown processes, then the cycles of references. -/
def checkPreconditions (rows : List PreconditionRow) : CheckReport :=
  let reading := TableReading.ofRows rows
  ⟨reading.preconditions,
    reading.problems ++ reading.unknownReferences ++
      (referenceGraph reading.preconditions).cycles.map .cyclic⟩

end ProcessFlow
