import ProcessFlow.Toml.Scalar
import ProcessFlow.Toml.Table

/-! # Reading TOML

Values are read with a limit on how deep arrays and inline tables lie within one another. Every step
of the reading takes at least every other time a character, so twice the length of the text bounds
the number of steps.
-/

namespace ProcessFlow

namespace Toml

mutual

/-- A value. `depth` is how many more arrays and inline tables may be opened. -/
def takeValue? : Nat → Nat → List Char → Option (Json × List Char)
  | 0, _, _ => none
  | fuel + 1, depth, text =>
    match text with
    | '[' :: rest =>
      match depth with
      | 0 => none
      | depth + 1 => (takeItems? fuel depth rest).map fun (items, rest) => (.array items, rest)
    | '\x7b' :: rest =>
      match depth with
      | 0 => none
      | depth + 1 =>
        match skipSpace rest with
        | '\x7d' :: rest => some (.object [], rest)
        | rest => (takePairs? fuel depth .emptyTable rest).map fun (table, rest) =>
            (table.toJson, rest)
    | '"' :: _ | '\'' :: _ => (takeString? text).map fun (string, rest) =>
        (.ofText (String.ofList string), rest)
    | text => takeScalar? text

/-- The items of an array up to its closing bracket. A comma may follow the last one. -/
def takeItems? : Nat → Nat → List Char → Option (List Json × List Char)
  | 0, _, _ => none
  | fuel + 1, depth, text =>
    match skipGaps (text.length + 1) text with
    | ']' :: rest => some ([], rest)
    | text =>
      match takeValue? fuel depth text with
      | none => none
      | some (item, rest) =>
        match skipGaps (rest.length + 1) rest with
        | ',' :: rest => (takeItems? fuel depth rest).map fun (items, rest) => (item :: items, rest)
        | ']' :: rest => some ([item], rest)
        | _ => none

/-- The keys and values of an inline table up to its closing brace. No comma follows the last
one. -/
def takePairs? : Nat → Nat → Node → List Char → Option (Node × List Char)
  | 0, _, _, _ => none
  | fuel + 1, depth, table, text =>
    match takePath? text with
    | some (path, '=' :: rest) =>
      match takeValue? fuel depth (skipSpace rest) with
      | none => none
      | some (value, rest) =>
        match table.addValue? path value with
        | none => none
        | some table =>
          match skipSpace rest with
          | ',' :: rest => takePairs? fuel depth table rest
          | '\x7d' :: rest => some (table, rest)
          | _ => none
    | _ => none

end

/-- A document read so far: its tables, and the path of the table that the last header began. -/
structure Document where
  root : Node
  current : List String

namespace Document

def empty : Document := ⟨.emptyTable, []⟩

def addValue? (document : Document) (path : List String) (value : Json) : Option Document :=
  (document.root.changeCurrent? (Node.addValue? path value) document.current).map fun root =>
    { document with root }

def openTable? (document : Document) (path : List String) : Option Document :=
  (document.root.openTable? path).map fun root => ⟨root, path⟩

/-- Begin one more of the tables of a name. -/
def openElement? (document : Document) (path : List String) : Option Document :=
  (document.root.openElement? path).map fun root => ⟨root, path⟩

end Document

/-- The rest after a header with its brackets, and the document that goes on with its table. -/
def takeHeader? (document : Document) : List Char → Option (Document × List Char)
  | '[' :: '[' :: rest =>
    match takePath? rest with
    | some (path, ']' :: ']' :: rest) => (document.openElement? path).map fun document =>
        (document, rest)
    | _ => none
  | '[' :: rest =>
    match takePath? rest with
    | some (path, ']' :: rest) => (document.openTable? path).map fun document => (document, rest)
    | _ => none
  | _ => none

/-- The rest after a key and its value, and the document with the value. -/
def takeEntry? (document : Document) (text : List Char) : Option (Document × List Char) :=
  match takePath? text with
  | some (path, '=' :: rest) =>
    match takeValue? (2 * rest.length + 2) (depthLimit - 1) (skipSpace rest) with
    | some (value, rest) => (document.addValue? path value).map fun document => (document, rest)
    | none => none
  | _ => none

/-- Read the lines of a text of at most the given length. -/
def readLines? : Nat → Document → List Char → Option Document
  | 0, _, _ => none
  | fuel + 1, document, text =>
    match skipSpace text with
    | [] => some document
    | '#' :: rest => (endLine? ('#' :: rest)).bind (readLines? fuel document)
    | '\n' :: rest => readLines? fuel document rest
    | '\r' :: '\n' :: rest => readLines? fuel document rest
    | '[' :: rest => do
      let (document, rest) ← takeHeader? document ('[' :: rest)
      readLines? fuel document (← endLine? rest)
    | text => do
      let (document, rest) ← takeEntry? document text
      readLines? fuel document (← endLine? rest)

/-- The value of a document, in which each table is an object. A byte order mark may stand in
front. -/
def parse? (text : String) : Option Json :=
  let characters :=
    match text.toList with
    | '\uFEFF' :: rest => rest
    | characters => characters
  (readLines? (characters.length + 1) .empty characters).map fun document => document.root.toJson

end Toml

end ProcessFlow
