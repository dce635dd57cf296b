import ProcessFlow.Failure
import ProcessFlow.Files.Path
import ProcessFlow.Json.Decode
import ProcessFlow.Json.Parser
import ProcessFlow.Text.Blank

/-! # Documents and tables in files

A document is one JSON value. A table is a document that lists its rows, or, in a file with the
extension `jsonl`, one document in each line. Blank lines of a table are passed over, but they are
counted.
-/

namespace ProcessFlow

variable {α : Type}

/-- Whether a path names a table with one row in each line. -/
def isLineTable (path : String) : Bool :=
  (fileName? path).bind extension? = some ['j', 's', 'o', 'n', 'l']

/-- Read a document from what was found at its path. -/
def readDocument (decode? : Json → Option α) (path : String) :
    Except FileProblem FileEntry → Except Failure α
  | .error problem => .error (.during ("Failed to open " ++ path) (.file problem))
  | .ok entry =>
    match entry.text? with
    | .error problem => .error (.during ("Failed to read " ++ path) (.file problem))
    | .ok text =>
      match (Json.ofChars? text).bind decode? with
      | none => .error (.during ("Failed to parse " ++ path) .malformedJson)
      | some value => .ok value

/-- A line without the carriage return that is part of its end. -/
def dropReturn (line : FileContent) : FileContent :=
  if line.getLast? = some (some '\r') then line.dropLast else line

/-- The lines of pieces between line feeds. Every piece but the last has a line feed after it, and
the last piece is a line if there is something in it. -/
def linesOfPieces : List FileContent → List FileContent
  | [] => []
  | [last] => if last.isEmpty then [] else [last]
  | piece :: rest => dropReturn piece :: linesOfPieces rest

def contentLines (content : FileContent) : List FileContent :=
  linesOfPieces (pieces (some '\n') content)

/-- Read the rows of lines, the first of which has the given number. -/
def readLineRows (decode? : Json → Option α) (path : String) (number : Nat) :
    List FileContent → Except Failure (List α)
  | [] => .ok []
  | line :: rest =>
    match readableText? line with
    | none => .error (.during ("Failed to read line " ++ toString number) (.file .invalidText))
    | some text =>
      if text.all isBlank then readLineRows decode? path (number + 1) rest
      else
        match (Json.ofChars? text).bind decode? with
        | none =>
          .error (.during ("Failed to parse row at " ++ path ++ ":" ++ toString number)
            .malformedJson)
        | some row => (readLineRows decode? path (number + 1) rest).map (row :: ·)

def readLineTable (decode? : Json → Option α) (path : String) :
    Except FileProblem FileEntry → Except Failure (List α)
  | .error problem => .error (.during ("Failed to open " ++ path) (.file problem))
  | .ok .directory => .error (.during "Failed to read line 1" (.file .isADirectory))
  | .ok (.file content) => readLineRows decode? path 1 (contentLines content)

def readTable (decode? : Json → Option α) (path : String) (found : Except FileProblem FileEntry) :
    Except Failure (List α) :=
  if isLineTable path then readLineTable decode? path found
  else readDocument (Json.list? decode?) path found

end ProcessFlow
