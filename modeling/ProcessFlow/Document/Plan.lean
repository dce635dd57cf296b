import ProcessFlow.Document.Identifier
import ProcessFlow.Plan

/-! # Plans in documents -/

namespace ProcessFlow

def Assignment.ofJson? (value : Json) : Option Assignment :=
  match value.fields? ["resources"] with
  | some [resources] => do
    let resources ← Json.withDefault (fun value => do
      let members ← value.members?
      let amounts ← members.mapM fun (name, amount) => amount.double?.map fun amount =>
        (name, amount)
      return OrderedMap.ofList amounts) ∅ resources
    return ⟨resources⟩
  | _ => none

def ProjectState.ofJson? (value : Json) : Option ProjectState :=
  match value.fields? ["time", "completion_count"] with
  | some [time, counts] => do
    let time ← Json.required Json.double? time
    let counts ← Json.withDefault (Ident.tableOfJson? .process Json.count?) ∅ counts
    return ⟨time, counts⟩
  | _ => none

def Transition.ofJson? (value : Json) : Option Transition :=
  match value.fields? ["allocation", "next_state"] with
  | some [allocation, next] => do
    let allocation ←
      Json.withDefault (Ident.tableOfJson? .process Assignment.ofJson?) ∅ allocation
    let next ← Json.required ProjectState.ofJson? next
    return ⟨allocation, next⟩
  | _ => none

def Plan.ofJson? (value : Json) : Option Plan :=
  match value.fields? ["initial_state", "transitions"] with
  | some [initial, transitions] => do
    let initial ← Json.required ProjectState.ofJson? initial
    let transitions ← Json.withDefault (Json.list? Transition.ofJson?) [] transitions
    return ⟨initial, transitions⟩
  | _ => none

end ProcessFlow
