import ProcessFlow.Collection.Order
import ProcessFlow.Text.Blank
import ProcessFlow.Text.Pieces

/-! # Identifiers of a process model

Processes, deliverables, milestones and groups are named by one or more characters of
`[A-Za-z0-9_.-]`. Identifiers are ordered by their length in bytes first and alphabetically among
equal lengths, so that numbered names come in the order of their numbers (`P9`, `P10`, `PA1`).
Every set, table and report follows this order.
-/

namespace ProcessFlow

inductive IdKind where
  | process
  | deliverable
  | milestone
  | group
deriving DecidableEq

/-- The word for a kind of identifier in messages. -/
def IdKind.word : IdKind → String
  | .process => "process"
  | .deliverable => "deliverable"
  | .milestone => "milestone"
  | .group => "group"

structure Ident (kind : IdKind) where
  text : String
deriving DecidableEq, Inhabited

/-- Names a process, a box of the diagram. -/
abbrev ProcessId := Ident .process

/-- Names a deliverable, which flows between processes. -/
abbrev DeliverableId := Ident .deliverable

/-- Names a checkpoint of the project. -/
abbrev MilestoneId := Ident .milestone

/-- Names a team or track that follows milestones of its own. -/
abbrev GroupId := Ident .group

/-- Compare two names by their length in bytes, then alphabetically. Alphabetical order by code
point is the order of the UTF-8 bytes. -/
def compareNames (left right : String) : Ordering :=
  (compare left.utf8ByteSize right.utf8ByteSize).then (compareOfLessAndEq left right)

namespace Ident

variable {kind : IdKind}

instance : LT (Ident kind) where
  lt left right := left.text.utf8ByteSize < right.text.utf8ByteSize ∨
    left.text.utf8ByteSize = right.text.utf8ByteSize ∧ left.text < right.text

instance : LE (Ident kind) where
  le left right := left.text.utf8ByteSize < right.text.utf8ByteSize ∨
    left.text.utf8ByteSize = right.text.utf8ByteSize ∧ left.text ≤ right.text

instance : DecidableLT (Ident kind) := fun left right =>
  inferInstanceAs (Decidable (left.text.utf8ByteSize < right.text.utf8ByteSize ∨
    left.text.utf8ByteSize = right.text.utf8ByteSize ∧ left.text < right.text))

theorem lt_iff {left right : Ident kind} : left < right ↔
    left.text.utf8ByteSize < right.text.utf8ByteSize ∨
      left.text.utf8ByteSize = right.text.utf8ByteSize ∧ left.text < right.text := Iff.rfl

theorem le_iff {left right : Ident kind} : left ≤ right ↔
    left.text.utf8ByteSize < right.text.utf8ByteSize ∨
      left.text.utf8ByteSize = right.text.utf8ByteSize ∧ left.text ≤ right.text := Iff.rfl

instance : Std.IsLinearOrder (Ident kind) :=
  isLinearOrder_of_keys le_iff fun {left right} _ same => by
    cases left
    cases right
    exact congrArg Ident.mk same

instance : Std.LawfulOrderLT (Ident kind) := lawfulOrderLT_of_keys le_iff lt_iff

/-- The order of identifiers is the comparison of their names. -/
theorem lt_iff_compareNames {left right : Ident kind} :
    left < right ↔ compareNames left.text right.text = .lt := by
  simp only [lt_iff, compareNames, Ordering.then_eq_lt, Nat.compare_eq_eq, Std.compare_eq_lt,
    compareOfLessAndEq]
  refine or_congr Iff.rfl (and_congr Iff.rfl ?_)
  split
  · rename_i less
    exact ⟨fun _ => rfl, fun _ => less⟩
  · rename_i notLess
    refine ⟨fun less => absurd less notLess, fun compared => ?_⟩
    split at compared <;> cases compared

end Ident

/-- A text that is no identifier, by the kind that was wanted. -/
structure IdError where
  kind : IdKind
  value : String
deriving DecidableEq

def IdError.message (error : IdError) : String :=
  "Invalid " ++ error.kind.word ++ " ID: expected one or more of [A-Za-z0-9_.-], got '" ++
    error.value ++ "'"

def isIdChar (character : Char) : Bool :=
  character.isAlphanum || character == '_' || character == '-' || character == '.'

/-- A name fit for an identifier: not empty, and of identifier characters only. -/
def isIdName (name : List Char) : Bool := !name.isEmpty && name.all isIdChar

namespace Ident

/-- Every character of the name is allowed, and there is at least one. -/
def Valid {kind : IdKind} (id : Ident kind) : Prop := isIdName id.text.toList = true

instance {kind : IdKind} (id : Ident kind) : Decidable id.Valid :=
  inferInstanceAs (Decidable (isIdName id.text.toList = true))

/-- Read an identifier from its characters, ignoring blanks around it. -/
def ofChars? (kind : IdKind) (text : List Char) : Except IdError (Ident kind) :=
  let name := trimBlank text
  if isIdName name then .ok ⟨String.ofList name⟩ else .error ⟨kind, String.ofList name⟩

def parse? (kind : IdKind) (text : String) : Except IdError (Ident kind) := ofChars? kind text.toList

/-- Read a column of identifiers between commas, ignoring blank entries. -/
def parseList? (kind : IdKind) (column : String) : Except IdError (List (Ident kind)) :=
  (((pieces ',' column.toList).map trimBlank).filter (· ≠ [])).mapM (ofChars? kind)

end Ident

end ProcessFlow
