import ProcessFlow.Text.Utf8

/-! # What is found at a path -/

namespace ProcessFlow

/-- What keeps a file from being read. -/
inductive FileProblem where
  /-- Nothing is there. -/
  | notFound
  /-- The path goes through something that is no directory. -/
  | notADirectory
  /-- A directory has no text. -/
  | isADirectory
  /-- The path, or a name in it, is longer than any that a disk can hold. -/
  | nameTooLong
  /-- A null character ends a path, so no path goes on after one. -/
  | nullInPath
  /-- The bytes of the file are no UTF-8. -/
  | invalidText
  | other (description : String)
deriving DecidableEq

/-- Whether a problem means that there is no such file. -/
def FileProblem.isAbsence : FileProblem → Bool
  | .notFound | .notADirectory | .nameTooLong | .nullInPath => true
  | _ => false

/-- The characters of a file, with `none` for every unreadable byte. -/
abbrev FileContent := List (Option Char)

inductive FileEntry where
  | directory
  | file (content : FileContent)
deriving DecidableEq

def FileEntry.text? : FileEntry → Except FileProblem (List Char)
  | .directory => .error .isADirectory
  | .file content =>
    match readableText? content with
    | some text => .ok text
    | none => .error .invalidText

end ProcessFlow
