import ProcessFlow.Json.Token

/-! # Reading JSON

The tokens of a text are read once from left to right. A reading holds the arrays and objects that
are still open, innermost first, and what has to come next. Taking in a complete value is one step,
whether the value is a scalar or an array or object that has just been closed, so a value is read in
the same way wherever it stands.
-/

namespace ProcessFlow

/-- A part of a value that is still open, with what it holds so far, latest first. -/
inductive JsonFrame where
  | array (items : List Json)
  | object (members : List (Option String × Json))
  /-- A member of the object below, whose value is being read. -/
  | member (name : Option String)

/-- What a reading of JSON has to meet next. -/
inductive JsonStage where
  | value
  /-- A value, or the end of the array just opened. -/
  | valueOrEnd
  /-- The name of a member. -/
  | name
  /-- The name of a member, or the end of the object just opened. -/
  | nameOrEnd
  /-- The colon after the name of a member. -/
  | colon
  /-- A comma or the end of the innermost array or object. -/
  | separator
  /-- Nothing more, because the value is complete. -/
  | finished (value : Json)

structure JsonReading where
  stage : JsonStage
  frames : List JsonFrame

namespace JsonReading

def initial : JsonReading := ⟨.value, []⟩

/-- Take in a complete value. -/
def provide? (value : Json) : List JsonFrame → Option JsonReading
  | [] => some ⟨.finished value, []⟩
  | .array items :: outer => some ⟨.separator, .array (value :: items) :: outer⟩
  | .member name :: .object members :: outer =>
    some ⟨.separator, .object ((name, value) :: members) :: outer⟩
  | _ => none

/-- Begin a value, which a scalar also ends. -/
def openValue? (frames : List JsonFrame) : JsonToken → Option JsonReading
  | .openArray => some ⟨.valueOrEnd, .array [] :: frames⟩
  | .openObject => some ⟨.nameOrEnd, .object [] :: frames⟩
  | .string text => provide? (.string text) frames
  | .scalar value => provide? value frames
  | _ => none

/-- End the innermost array or object. -/
def close? : List JsonFrame → JsonToken → Option JsonReading
  | .array items :: outer, .closeArray => provide? (.array items.reverse) outer
  | .object members :: outer, .closeObject => provide? (.object members.reverse) outer
  | _, _ => none

/-- Begin a member by its name. -/
def openMember? (frames : List JsonFrame) : JsonToken → Option JsonReading
  | .string name => some ⟨.colon, .member name :: frames⟩
  | _ => none

/-- Go on after a complete item or member. -/
def next? : List JsonFrame → JsonToken → Option JsonReading
  | .array items :: outer, .comma => some ⟨.value, .array items :: outer⟩
  | .object members :: outer, .comma => some ⟨.name, .object members :: outer⟩
  | frames, token => close? frames token

def step? (reading : JsonReading) (token : JsonToken) : Option JsonReading :=
  match reading.stage, token with
  | .value, _ => openValue? reading.frames token
  | .valueOrEnd, _ => (openValue? reading.frames token).or (close? reading.frames token)
  | .name, _ => openMember? reading.frames token
  | .nameOrEnd, _ => (openMember? reading.frames token).or (close? reading.frames token)
  | .colon, .colon => some ⟨.value, reading.frames⟩
  | .separator, _ => next? reading.frames token
  | _, _ => none

def run? (reading : JsonReading) (tokens : List JsonToken) : Option JsonReading :=
  tokens.foldlM step? reading

/-- The value that has been read, if it is complete. -/
def value? (reading : JsonReading) : Option Json :=
  match reading.stage with
  | .finished value => some value
  | _ => none

end JsonReading

namespace Json

def ofTokens? (tokens : List JsonToken) : Option Json :=
  (JsonReading.initial.run? tokens).bind JsonReading.value?

def ofChars? (text : List Char) : Option Json := (JsonToken.ofText? text).bind ofTokens?

def parse? (text : String) : Option Json := ofChars? text.toList

end Json

end ProcessFlow
