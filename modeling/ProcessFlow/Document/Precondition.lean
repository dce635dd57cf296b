import ProcessFlow.Document.Identifier
import ProcessFlow.Precondition.Basic

/-! # Preconditions in documents

A precondition is a record whose first field, `kind`, says what it is and which fields follow. The
kind is given by its word; within another precondition the number of the kind does as well.
-/

namespace ProcessFlow

namespace Precondition

/-- The word for what a precondition is. -/
def kind : Precondition → String
  | .always => "true"
  | .executable _ => "executable"
  | .feedbackCompleted _ => "feedback_source_completed"
  | .allFeedbackCompleted _ => "all_reachable_feedback_sources_completed"
  | .all _ => "and"
  | .any _ => "or"
  | .not _ => "not"

mutual

def toJson : Precondition → Json
  | .always => .record [("kind", .ofText "true")]
  | .executable target => .record [("kind", .ofText "executable"), ("target", target.toJson)]
  | .feedbackCompleted source =>
    .record [("kind", .ofText "feedback_source_completed"), ("source", source.toJson)]
  | .allFeedbackCompleted context =>
    .record
      [("kind", .ofText "all_reachable_feedback_sources_completed"), ("context", context.toJson)]
  | .all children => .record [("kind", .ofText "and"), ("children", .array (listToJson children))]
  | .any children => .record [("kind", .ofText "or"), ("children", .array (listToJson children))]
  | .not child => .record [("kind", .ofText "not"), ("child", toJson child)]

def listToJson : List Precondition → List Json
  | [] => []
  | child :: rest => toJson child :: listToJson rest

end

/-- What a record says of a precondition beside its kind: the fields by name, or the fields in
order where the record is an array. -/
inductive Payload where
  | named (members : List (String × Json))
  | ordered (items : List Json)

namespace Payload

def field? (name : String) : Payload → Option Json
  | .named members => if Json.isSingle members name then Json.lookup? name members else none
  | .ordered [value] => some value
  | .ordered _ => none

/-- Whether the record may have no field at all. -/
def isBare : Payload → Bool
  | .named _ => true
  | .ordered items => items.isEmpty

end Payload

/-- The words for the kinds, in the order of their numbers from zero on. -/
def kindWords : List String :=
  ["true", "executable", "feedback_source_completed", "all_reachable_feedback_sources_completed",
    "and", "or", "not"]

/-- The kind of a precondition within another one, which is given by its word or its number. -/
def innerKind? (value : Json) : Option String :=
  value.text?.or (value.natural?.bind fun number => kindWords[number]?)

/-- The kind of a record and its other fields. -/
def split? (kind? : Json → Option String) : Json → Option (String × Payload)
  | .array (first :: items) => (kind? first).map fun kind => (kind, .ordered items)
  | .object members => do
    let members ← (Json.object members).members?
    if Json.isSingle members "kind" then do
      let kind ← (Json.lookup? "kind" members).bind kind?
      return (kind, .named members)
    else none
  | _ => none

/-- The precondition of a record, if its parts are nested at most so deep. -/
def ofJsonWithin? : Nat → (Json → Option String) → Json → Option Precondition
  | 0, _, _ => none
  | depth + 1, kind?, value => do
    let (kind, payload) ← split? kind? value
    match kind with
    | "true" => if payload.isBare then some .always else none
    | "executable" =>
      ((payload.field? "target").bind (Ident.ofJson? .process)).map .executable
    | "feedback_source_completed" =>
      ((payload.field? "source").bind (Ident.ofJson? .deliverable)).map .feedbackCompleted
    | "all_reachable_feedback_sources_completed" =>
      ((payload.field? "context").bind (Ident.ofJson? .process)).map .allFeedbackCompleted
    | "and" =>
      ((payload.field? "children").bind (Json.list? (ofJsonWithin? depth innerKind?))).map .all
    | "or" =>
      ((payload.field? "children").bind (Json.list? (ofJsonWithin? depth innerKind?))).map .any
    | "not" => ((payload.field? "child").bind (ofJsonWithin? depth innerKind?)).map .not
    | _ => none

end Precondition

namespace Json

mutual

/-- How many levels of arrays and objects a value has, itself included. -/
def depth : Json → Nat
  | .array items => itemsDepth items + 1
  | .object members => membersDepth members + 1
  | _ => 1

def itemsDepth : List Json → Nat
  | [] => 0
  | item :: rest => max item.depth (itemsDepth rest)

def membersDepth : List (Option String × Json) → Nat
  | [] => 0
  | (_, value) :: rest => max value.depth (membersDepth rest)

end

end Json

def Precondition.ofJson? (value : Json) : Option Precondition :=
  ofJsonWithin? value.depth Json.text? value

end ProcessFlow
