import Mathlib.Data.List.Forall2
import ProcessFlow.Json.Parser
import ProcessFlow.Proofs.Json.Token
import ProcessFlow.Proofs.Text.Blank

/-! # Values inside other values

A value is read in the same way wherever it stands. What is open around it is not looked at until the
value is complete, and then takes it in. So an array of values may be written by putting commas between
texts that are these values, and blanks around the texts make no difference.
-/

namespace ProcessFlow

namespace JsonReading

variable {reading next last : JsonReading} {frames outer : List JsonFrame} {token : JsonToken}
  {tokens : List JsonToken} {value : Json} {text rest : List Char}

/-- The same reading with more parts open around it. If its value is complete, this goes to them. -/
def within? (outer : List JsonFrame) (reading : JsonReading) : Option JsonReading :=
  match reading.stage with
  | .finished value => provide? value outer
  | stage => some ⟨stage, reading.frames ++ outer⟩

/-! ## Steps -/

theorem provide?_within (provided : provide? value frames = some next) :
    provide? value (frames ++ outer) = next.within? outer := by
  unfold provide? at provided
  split at provided
  · cases provided
    rfl
  · cases provided
    rfl
  · cases provided
    rfl
  · cases provided

theorem openValue?_within (opened : openValue? frames token = some next) :
    openValue? (frames ++ outer) token = next.within? outer := by
  cases token with
  | openArray | openObject =>
    cases opened
    rfl
  | string | scalar => exact provide?_within opened
  | closeArray | closeObject | colon | comma => cases opened

theorem openMember?_within (opened : openMember? frames token = some next) :
    openMember? (frames ++ outer) token = next.within? outer := by
  cases token with
  | string =>
    cases opened
    rfl
  | _ => cases opened

theorem close?_within (closed : close? frames token = some next) :
    close? (frames ++ outer) token = next.within? outer := by
  unfold close? at closed
  split at closed
  · exact provide?_within closed
  · exact provide?_within closed
  · cases closed

theorem closing_of_close? (closed : close? frames token = some next) :
    token = .closeArray ∨ token = .closeObject := by
  unfold close? at closed
  split at closed
  · exact .inl rfl
  · exact .inr rfl
  · cases closed

theorem next?_within (stepped : next? frames token = some next) :
    next? (frames ++ outer) token = next.within? outer := by
  unfold next? at stepped
  split at stepped
  · cases stepped
    rfl
  · cases stepped
    rfl
  · rw [← close?_within stepped]
    rcases closing_of_close? stepped with rfl | rfl <;> rw [next?] <;> exact nofun

/-- What begins a value or a member ends nothing. -/
theorem close?_of_openValue? (opened : openValue? frames token = some next) (other : List JsonFrame) :
    close? other token = none := by
  cases token with
  | openArray | openObject | string | scalar => simp only [close?]
  | closeArray | closeObject | colon | comma => cases opened

theorem close?_of_openMember? (opened : openMember? frames token = some next)
    (other : List JsonFrame) : close? other token = none := by
  cases token with
  | string => simp only [close?]
  | _ => cases opened

/-- A step is the same with more parts open around. -/
theorem step?_within (stepped : reading.step? token = some next) :
    (reading.within? outer).bind (·.step? token) = next.within? outer := by
  obtain ⟨stage, frames⟩ := reading
  cases stage with
  | value => exact openValue?_within stepped
  | valueOrEnd =>
    have wider : (openValue? (frames ++ outer) token).or (close? (frames ++ outer) token) =
        next.within? outer := by
      rcases Option.or_eq_some_iff.mp stepped with opened | ⟨_, closed⟩
      · rw [openValue?_within opened, close?_of_openValue? opened, Option.or_none]
      · rw [close?_within closed]
        rcases closing_of_close? closed with rfl | rfl <;> exact Option.none_or
    exact wider
  | name => exact openMember?_within stepped
  | nameOrEnd =>
    have wider : (openMember? (frames ++ outer) token).or (close? (frames ++ outer) token) =
        next.within? outer := by
      rcases Option.or_eq_some_iff.mp stepped with opened | ⟨_, closed⟩
      · rw [openMember?_within opened, close?_of_openMember? opened, Option.or_none]
      · rw [close?_within closed]
        rcases closing_of_close? closed with rfl | rfl <;> exact Option.none_or
    exact wider
  | colon =>
    cases token with
    | colon =>
      cases stepped
      rfl
    | _ => cases stepped
  | separator => exact next?_within stepped
  | finished => cases token <;> cases stepped

/-- Tokens are read in the same way with more parts open around. -/
theorem run?_within (ran : reading.run? tokens = some last) :
    (reading.within? outer).bind (·.run? tokens) = last.within? outer := by
  induction tokens generalizing reading with
  | nil =>
    cases ran
    exact Option.bind_fun_some _
  | cons token others ih =>
    obtain ⟨next, stepped, onward⟩ := Option.bind_eq_some_iff.mp ran
    rw [← ih onward, ← step?_within stepped, Option.bind_assoc]
    rfl

/-- A complete value goes to what is open around it. -/
theorem within?_of_value? (complete : reading.value? = some value) :
    reading.within? outer = provide? value outer := by
  obtain ⟨stage, frames⟩ := reading
  cases stage with
  | finished =>
    cases complete
    rfl
  | _ => cases complete

/-- Where an array may end, a value is read as where it may not. -/
theorem run?_valueOrEnd (ran : initial.run? tokens = some last) (complete : last.value? = some value) :
    run? ⟨.valueOrEnd, outer⟩ tokens = run? ⟨.value, outer⟩ tokens := by
  cases tokens with
  | nil =>
    cases ran
    cases complete
  | cons token others =>
    obtain ⟨next, opened, _⟩ := Option.bind_eq_some_iff.mp ran
    have same : step? ⟨.valueOrEnd, outer⟩ token = step? ⟨.value, outer⟩ token := by
      simp only [step?, close?_of_openValue? opened, Option.or_none]
    simp only [run?, List.foldlM_cons, same]

/-! ## Texts -/

/-- Go on with a reading through a text. -/
def readText? (reading : JsonReading) (text : List Char) : Option JsonReading :=
  (JsonToken.ofText? text).bind reading.run?

theorem ofChars?_eq (text : List Char) :
    Json.ofChars? text = (initial.readText? text).bind value? := (Option.bind_assoc ..).symm

theorem readText?_blank (blank : JsonBlank text) : reading.readText? text = some reading := by
  rw [readText?, JsonToken.ofText?_of_blank blank]
  rfl

theorem readText?_blank_append (blank : JsonBlank text) (rest : List Char) :
    reading.readText? (text ++ rest) = reading.readText? rest := by
  rw [readText?, JsonToken.ofText?_blank_append blank, readText?]

theorem readText?_append (read : JsonToken.ofText? text = some tokens)
    (delimits : JsonToken.Delimits rest) :
    reading.readText? (text ++ rest) = (reading.run? tokens).bind (·.readText? rest) := by
  rw [readText?, JsonToken.ofText?_append read delimits, Option.bind_map]
  simp only [readText?]
  cases JsonToken.ofText? rest with
  | none => simp
  | some others => simp [run?, List.foldlM_append]

theorem readText?_cons {head : Char} (solid : isJsonBlank head = false)
    (taken : JsonToken.take? (head :: rest) = some (token, rest)) :
    reading.readText? (head :: rest) = (reading.step? token).bind (·.readText? rest) := by
  rw [readText?, JsonToken.ofText?_cons solid taken, Option.bind_map]
  simp only [readText?]
  cases JsonToken.ofText? rest with
  | none => simp
  | some others => rfl

/-- A text that is a value gives the value to what is open around it. -/
theorem readText?_value {stage : JsonStage} (begins : stage = .value ∨ stage = .valueOrEnd)
    (read : Json.ofChars? text = some value) (delimits : JsonToken.Delimits rest) :
    readText? ⟨stage, outer⟩ (text ++ rest) = (provide? value outer).bind (·.readText? rest) := by
  obtain ⟨tokens, cut, whole⟩ := Option.bind_eq_some_iff.mp read
  obtain ⟨last, ran, complete⟩ := Option.bind_eq_some_iff.mp whole
  have given : run? ⟨.value, outer⟩ tokens = provide? value outer :=
    (run?_within ran).trans (within?_of_value? complete)
  rw [readText?_append cut delimits, ← given]
  rcases begins with rfl | rfl
  · rfl
  · rw [run?_valueOrEnd ran complete]

/-- Values with commas between them are the items of the array that ends after them. -/
theorem readText?_items {stage : JsonStage} (begins : stage = .value ∨ stage = .valueOrEnd)
    {texts : List (List Char)} {values : List Json}
    (read : Json.ofChars? text = some value)
    (others : List.Forall₂ (fun text value => Json.ofChars? text = some value) texts values)
    (done : List Json) :
    readText? ⟨stage, .array done :: outer⟩ (List.intercalate [','] (text :: texts) ++ ']' :: rest) =
      (provide? (.array (done.reverse ++ value :: values)) outer).bind (·.readText? rest) := by
  have bracket : JsonToken.Delimits [']'] := by decide
  have comma : JsonToken.Delimits [','] := by decide
  induction others generalizing stage text value done with
  | nil =>
    have closes : step? ⟨.separator, .array (value :: done) :: outer⟩ .closeArray =
        provide? (.array (done.reverse ++ [value])) outer := by
      rw [← List.reverse_cons]
      rfl
    rw [List.intercalate_singleton, readText?_value begins read (bracket.cons _), provide?,
      Option.bind_some, readText?_cons (by decide) rfl, closes]
  | cons nextRead _ ih =>
    have goesOn : step? ⟨.separator, .array (value :: done) :: outer⟩ .comma =
        some ⟨.value, .array (value :: done) :: outer⟩ := rfl
    rw [List.intercalate_cons_cons, List.append_assoc, List.append_assoc, List.singleton_append,
      readText?_value begins read (comma.cons _), provide?, Option.bind_some,
      readText?_cons (by decide) rfl, goesOn, Option.bind_some, ih (.inl rfl) nextRead,
      List.reverse_cons, List.append_assoc, List.singleton_append]

end JsonReading

/-- The text of an array by the texts of its items, with the blanks before it, inside it and behind it.
Blanks around the items are part of their texts. -/
structure ArrayText where
  front : List Char
  inside : List Char
  items : List (List Char)
  back : List Char
  blankFront : JsonBlank front
  blankInside : JsonBlank inside
  blankBack : JsonBlank back

/-- The characters of the text, with commas between the items. -/
def ArrayText.chars (array : ArrayText) : List Char :=
  array.front ++ '[' :: (array.inside ++ List.intercalate [','] array.items ++ ']' :: array.back)

/-- The text of an array is the array of what the texts of its items are. -/
theorem ArrayText.ofChars?_chars (array : ArrayText) {values : List Json}
    (read : List.Forall₂ (fun text value => Json.ofChars? text = some value) array.items values) :
    Json.ofChars? array.chars = some (.array values) := by
  obtain ⟨front, inside, texts, back, blankFront, blankInside, blankBack⟩ := array
  have opens : JsonReading.initial.step? .openArray = some ⟨.valueOrEnd, [.array []]⟩ := rfl
  rw [chars, JsonReading.ofChars?_eq, JsonReading.readText?_blank_append blankFront,
    JsonReading.readText?_cons (by decide) rfl, opens, Option.bind_some, List.append_assoc,
    JsonReading.readText?_blank_append blankInside]
  cases read with
  | nil =>
    have closes : JsonReading.step? ⟨.valueOrEnd, [.array []]⟩ .closeArray =
        some ⟨.finished (.array []), []⟩ := rfl
    rw [List.intercalate_nil, List.nil_append, JsonReading.readText?_cons (by decide) rfl, closes,
      Option.bind_some, JsonReading.readText?_blank blankBack]
    rfl
  | cons first others =>
    rw [JsonReading.readText?_items (.inr rfl) first others, JsonReading.provide?, Option.bind_some,
      JsonReading.readText?_blank blankBack]
    rfl

/-- A text of blanks is no value. -/
theorem Json.ofChars?_of_blank {text : List Char} (blank : Blank text) : ofChars? text = none := by
  have noTokens : JsonToken.ofText? text = some [] ∨ JsonToken.ofText? text = none := by
    rw [JsonToken.ofText?_eq]
    cases left : text.dropWhile isJsonBlank with
    | nil => exact .inl rfl
    | cons head tail =>
      have member : head ∈ text :=
        (List.dropWhile_suffix isJsonBlank).subset (left ▸ List.mem_cons_self ..)
      simp [JsonToken.take?_of_blank (blank head member)]
  rcases noTokens with none | none <;> rw [ofChars?, none] <;> rfl

end ProcessFlow
