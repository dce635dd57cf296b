import ProcessFlow.Document.Identifier
import ProcessFlow.Milestone
import ProcessFlow.Precondition.Table

/-! # Rows of tables in documents -/

namespace ProcessFlow

def PreconditionRow.ofJson? (value : Json) : Option PreconditionRow :=
  match value.fields? ["process", "precondition"] with
  | some [process, precondition] => do
    let process ← Json.required (Ident.ofJson? .process) process
    let precondition ← Json.withDefault Json.text? "" precondition
    return ⟨process, precondition⟩
  | _ => none

def MilestoneRow.ofJson? (value : Json) : Option MilestoneRow :=
  match value.fields? ["id", "processes", "successors", "groups"] with
  | some [id, processes, successors, groups] => do
    let id ← Json.required (Ident.ofJson? .milestone) id
    let processes ← Json.withDefault (Json.list? (Ident.ofJson? .process)) [] processes
    let successors ← Json.withDefault Json.text? "" successors
    let groups ← Json.withDefault Json.text? "" groups
    return ⟨id, processes, successors, groups⟩
  | _ => none

end ProcessFlow
