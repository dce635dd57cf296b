import ProcessFlow.Json.Basic
import ProcessFlow.Json.Number

/-! # Reading records out of JSON

A record is an object with named fields, or an array of the fields in their order. Fields of an
object that are not known are passed over; a known field may stand there only once. An array may
leave out fields at its end. Whether a field that is missing has a default depends on the field.
-/

namespace ProcessFlow

namespace Json

def text? : Json → Option String
  | .string text => text
  | _ => none

def double? : Json → Option Binary64
  | .number spelling => (JsonNumber.ofSpelling spelling).double?
  | _ => none

/-- The natural number of a number spelled without sign, point and exponent. -/
def natural? : Json → Option Nat
  | .number spelling => (JsonNumber.ofSpelling spelling).natural?
  | _ => none

/-- A natural number below `2 ^ 32`. -/
def count? (value : Json) : Option Nat :=
  value.natural?.filter (· < 4294967296)

/-- The integer of a number spelled without point and exponent. -/
def integer? : Json → Option Int
  | .number spelling => (JsonNumber.ofSpelling spelling).integer?
  | _ => none

def list? {α : Type} (item? : Json → Option α) : Json → Option (List α)
  | .array items => items.mapM item?
  | _ => none

def members? : Json → Option (List (String × Json))
  | .object members => members.mapM fun (name, value) => name.map fun name => (name, value)
  | _ => none

def lookup? (name : String) (members : List (String × Json)) : Option Json :=
  (members.find? fun member => member.1 = name).map Prod.snd

def isSingle (members : List (String × Json)) (name : String) : Bool :=
  members.countP (·.1 = name) ≤ 1

/-- The fields of a record by their names, each with its value unless it is missing. -/
def fields? (names : List String) : Json → Option (List (Option Json))
  | .array items =>
    if items.length ≤ names.length then
      some (items.map some ++ List.replicate (names.length - items.length) none)
    else none
  | value => do
    let members ← value.members?
    if names.all (isSingle members) then some (names.map (lookup? · members)) else none

def required {α : Type} (decode? : Json → Option α) (field : Option Json) : Option α :=
  field.bind decode?

def withDefault {α : Type} (decode? : Json → Option α) (default : α) : Option Json → Option α
  | none => some default
  | some value => decode? value

end Json

end ProcessFlow
