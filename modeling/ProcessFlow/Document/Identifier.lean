import ProcessFlow.Identifier
import ProcessFlow.Json.Decode
import ProcessFlow.Collection.OrderedMap

/-! # Identifiers in documents -/

namespace ProcessFlow

namespace Ident

variable {kind : IdKind}

def toJson (id : Ident kind) : Json := .ofText id.text

def ofJson? (kind : IdKind) (value : Json) : Option (Ident kind) :=
  value.text?.bind fun text => (parse? kind text).toOption

/-- A table from identifiers, written as an object. Of members that name the same identifier the
last one counts. -/
def tableOfJson? {β : Type} (kind : IdKind) (decode? : Json → Option β) (value : Json) :
    Option (OrderedMap (Ident kind) β) := do
  let members ← value.members?
  let entries ← members.mapM fun (name, value) => do
    let id ← (parse? kind name).toOption
    let entry ← decode? value
    return (id, entry)
  return .ofList entries

end Ident

end ProcessFlow
