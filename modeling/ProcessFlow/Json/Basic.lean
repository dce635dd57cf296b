/-! # JSON values

A value keeps what its text says: the members of an object in their order, with repeated names, and
numbers by their spelling. A string may be written with an unpaired surrogate; it then has no text.
-/

namespace ProcessFlow

inductive Json where
  | null
  | bool (value : Bool)
  /-- A number by its spelling. -/
  | number (spelling : List Char)
  /-- A string by its text, which it lacks if it holds an unpaired surrogate. -/
  | string (text : Option String)
  | array (items : List Json)
  /-- The members of an object by name and value. -/
  | object (members : List (Option String × Json))

namespace Json

instance : Inhabited Json := ⟨.null⟩

def ofText (text : String) : Json := .string (some text)

def ofNat (value : Nat) : Json := .number (Nat.toDigits 10 value)

def record (members : List (String × Json)) : Json :=
  .object (members.map fun (name, value) => (some name, value))

end Json

end ProcessFlow
