import ProcessFlow.Files.Entry
import ProcessFlow.Files.Path

/-! # Trees of files

A tree of files stands for a disk. Paths lead through it name by name: `.` and an empty name stay in
a directory, `..` leads up, and only a directory has anything in it. A name of excessive length is
found out in the directory that it is sought in, so a problem on the way there comes first.
-/

namespace ProcessFlow

/-- A tree of files. A place in it is given by the names that lead there from the root. -/
structure FileTree where
  /-- The directory where relative paths begin. -/
  working : List String
  /-- Files and directories by their places. What they lie in are directories, also if not given. -/
  entries : List (List String × FileEntry)

namespace FileTree

def fullPath (place : List String) : String := "/" ++ String.intercalate "/" place

def workingDirectory (tree : FileTree) : String := fullPath tree.working

def entryAt (tree : FileTree) (place : List String) : Except FileProblem FileEntry :=
  match tree.entries.find? fun entry => entry.1 = place with
  | some entry => .ok entry.2
  | none =>
    if place.isPrefixOf tree.working || tree.entries.any fun entry => place.isPrefixOf entry.1 then
      .ok .directory
    else .error .notFound

/-- The place that a name leads to from a directory. What is above the root is the root. -/
def enter (place : List String) (name : String) : Except FileProblem (List String) :=
  if name = "" ∨ name = "." then .ok place
  else if name = ".." then .ok place.dropLast
  else if longestName < name.utf8ByteSize then .error .nameTooLong
  else .ok (place ++ [name])

def follow (tree : FileTree) (place : List String) : List String → Except FileProblem FileEntry
  | [] => tree.entryAt place
  | name :: rest =>
    match tree.entryAt place with
    | .error problem => .error problem
    | .ok (.file _) => .error .notADirectory
    | .ok .directory =>
      match enter place name with
      | .error problem => .error problem
      | .ok place => tree.follow place rest

/-- What is at a path. A path that no disk can hold is not followed at all, and a path without
characters leads nowhere. -/
def look (tree : FileTree) (path : String) : Except FileProblem FileEntry :=
  if '\x00' ∈ path.toList then .error .nullInPath
  else if longestPath < path.utf8ByteSize then .error .nameTooLong
  else
    match path.front? with
    | none => .error .notFound
    | some '/' => tree.follow [] (pathNames path)
    | some _ => tree.follow tree.working (pathNames path)

end FileTree

end ProcessFlow
