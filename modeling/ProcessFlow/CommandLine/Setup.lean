import ProcessFlow.Document.Config
import ProcessFlow.Failure
import ProcessFlow.Files.Path

/-! # Setting up a run

A run is set up from two configuration files, both of which may be missing: that of the user, and
that of the project. The project's file is the one that is named, or else the one in the nearest
directory outward that holds a directory `.pfd`.
-/

namespace ProcessFlow

/-- Find out what is at a path. -/
abbrev FileLookup (m : Type → Type) := String → m (Except FileProblem FileEntry)

/-- What a run finds around it. -/
structure Surroundings (m : Type → Type) where
  look : FileLookup m
  /-- The full path of the working directory, if it can be told. -/
  workingDirectory : Option String
  /-- Where the configuration of the user belongs, if the user has a home. -/
  userConfig : Option String
  /-- The file that the environment names in the place of the project's configuration. -/
  projectConfig : Option String

structure Setup where
  user : GlobalConfig
  project : ProjectConfig

/-- The directory that marks a project, within the directory of the project. -/
def projectMark (directory : String) : String := directory ++ "/.pfd"

def projectFile (directory : String) : String := projectMark directory ++ "/config.toml"

def userConfigOf (path : String) (found : Except FileProblem FileEntry) :
    Except Failure GlobalConfig :=
  match found.bind FileEntry.text? with
  | .ok text =>
    match GlobalConfig.parse? (String.ofList text) with
    | some config => .ok config
    | none => .error (.during "Failed to parse global config" .malformedToml)
  | .error problem =>
    if problem.isAbsence then .ok .standard
    else .error (.during ("Failed to read global config: " ++ path) (.file problem))

def projectConfigOf (path : String) (found : Except FileProblem FileEntry) :
    Except Failure ProjectConfig :=
  match found.bind FileEntry.text? with
  | .error problem => .error (.during ("Failed to read project config: " ++ path) (.file problem))
  | .ok text =>
    match ProjectConfig.parse? (String.ofList text) with
    | none => .error (.during ("Failed to parse project config: " ++ path) .malformedToml)
    | some config =>
      match config.validate with
      | .error error =>
        .error (.duringMessages ("Invalid project config: " ++ path) [error.message])
      | .ok _ => .ok config

section Lookup

variable {m : Type → Type} [Monad m]

/-- The first of some directories that holds the mark of a project. -/
def findProject (look : FileLookup m) : List String → m (Option String)
  | [] => return none
  | directory :: rest => do
    match ← look (projectMark directory) with
    | .ok .directory => return some directory
    | _ => findProject look rest

namespace Surroundings

/-- The configuration file of the project that the working directory belongs to, if there is
one. -/
def findProjectFile (surroundings : Surroundings m) : m (Option String) := do
  let directories := (surroundings.workingDirectory.map ancestors).getD []
  match ← findProject surroundings.look directories with
  | none => return none
  | some directory =>
    match ← surroundings.look (projectFile directory) with
    | .ok _ => return some (projectFile directory)
    | .error problem => return if problem.isAbsence then none else some (projectFile directory)

def loadUserConfig (surroundings : Surroundings m) : ExceptT Failure m GlobalConfig :=
  match surroundings.userConfig with
  | none => return .standard
  | some path => do
    let found ← surroundings.look path
    liftExcept (userConfigOf path found)

/-- The configuration of the project, from a named file if there is one. -/
def loadProjectConfig (surroundings : Surroundings m) (named : Option String) :
    ExceptT Failure m ProjectConfig := do
  let path ← match named with
    | some path => pure (some path)
    | none => surroundings.findProjectFile
  match path with
  | none => return .standard
  | some path =>
    let found ← surroundings.look path
    liftExcept (projectConfigOf path found)

def load (surroundings : Surroundings m) (named : Option String) : ExceptT Failure m Setup := do
  let user ← surroundings.loadUserConfig
  let project ← surroundings.loadProjectConfig named
  return ⟨user, project⟩

end Surroundings

end Lookup

end ProcessFlow
