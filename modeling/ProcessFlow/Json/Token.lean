import ProcessFlow.Json.Basic
import ProcessFlow.Text.Digits
import ProcessFlow.Text.Front

/-! # Tokens of JSON

The text of a value is cut into tokens: marks, strings, numbers and the words `null`, `true` and
`false`. Spaces, tabs and line ends may stand between tokens.
-/

namespace ProcessFlow

/-- The smallest parts of a JSON text. -/
inductive JsonToken where
  | openObject
  | closeObject
  | openArray
  | closeArray
  | colon
  | comma
  /-- A string, which may be a value or the name of a member. -/
  | string (text : Option String)
  /-- A value of one token that is no string. -/
  | scalar (value : Json)

/-- The characters that may stand between tokens. -/
def isJsonBlank (character : Char) : Bool :=
  character = ' ' || character = '\t' || character = '\n' || character = '\r'

/-- What an element of a quoted string stands for: a character, or a unit of UTF-16 given by its
number. -/
inductive QuotedUnit where
  | plain (character : Char)
  | code (number : Nat)

namespace QuotedUnit

/-- The first half of a surrogate pair. -/
def isLeading (number : Nat) : Bool := 0xD800 ≤ number && number ≤ 0xDBFF

/-- The second half of a surrogate pair. -/
def isTrailing (number : Nat) : Bool := 0xDC00 ≤ number && number ≤ 0xDFFF

def pairChar (leading trailing : Nat) : Char :=
  Char.ofNat (0x10000 + (leading - 0xD800) * 0x400 + (trailing - 0xDC00))

/-- The characters that the elements of a string stand for, if every surrogate is one of a pair. -/
def text? : List QuotedUnit → Option (List Char)
  | [] => some []
  | .plain character :: rest => (text? rest).map (character :: ·)
  | [.code number] =>
    if isLeading number || isTrailing number then none else some [Char.ofNat number]
  | .code number :: .plain character :: rest =>
    if isLeading number || isTrailing number then none
    else (text? rest).map fun text => Char.ofNat number :: character :: text
  | .code number :: .code next :: rest =>
    if isLeading number then
      if isTrailing next then (text? rest).map (pairChar number next :: ·) else none
    else if isTrailing number then none
    else (text? (.code next :: rest)).map (Char.ofNat number :: ·)

end QuotedUnit

namespace JsonToken

def hexNumber? (first second third fourth : Char) : Option Nat := do
  let first ← hexValue? first
  let second ← hexValue? second
  let third ← hexValue? third
  let fourth ← hexValue? fourth
  return ((first * 16 + second) * 16 + third) * 16 + fourth

/-- The character of a short escape, by the letter after the backslash. -/
def escapeChar? : Char → Option Char
  | '"' => some '"'
  | '\\' => some '\\'
  | '/' => some '/'
  | 'b' => some '\x08'
  | 'f' => some '\x0c'
  | 'n' => some '\n'
  | 'r' => some '\r'
  | 't' => some '\t'
  | _ => none

/-- The elements of a string up to its closing quote, and what follows the quote. -/
def takeQuoted? : List Char → Option (List QuotedUnit × List Char)
  | '"' :: rest => some ([], rest)
  | '\\' :: 'u' :: first :: second :: third :: fourth :: rest => do
    let number ← hexNumber? first second third fourth
    let (units, rest) ← takeQuoted? rest
    return (.code number :: units, rest)
  | '\\' :: letter :: rest => do
    let character ← escapeChar? letter
    let (units, rest) ← takeQuoted? rest
    return (.plain character :: units, rest)
  | character :: rest =>
    if character.toNat < 0x20 || character = '\\' then none
    else do
      let (units, rest) ← takeQuoted? rest
      return (.plain character :: units, rest)
  | [] => none

/-- The whole part of a number, which has no zeros in front. -/
def takeWhole? : List Char → Option (List Char × List Char)
  | '0' :: rest => some (['0'], rest)
  | text => someDigits? text

/-- The fraction of a number with its point, if there is one. -/
def takeFraction? : List Char → Option (List Char × List Char)
  | '.' :: rest => (someDigits? rest).map fun (digits, rest) => ('.' :: digits, rest)
  | text => some ([], text)

/-- The exponent of a number after its letter. -/
def takePower? : List Char → Option (List Char × List Char)
  | '+' :: rest => (someDigits? rest).map fun (digits, rest) => ('+' :: digits, rest)
  | '-' :: rest => (someDigits? rest).map fun (digits, rest) => ('-' :: digits, rest)
  | text => someDigits? text

/-- The exponent of a number with its letter, if there is one. -/
def takeExponent? : List Char → Option (List Char × List Char)
  | 'e' :: rest => (takePower? rest).map fun (power, rest) => ('e' :: power, rest)
  | 'E' :: rest => (takePower? rest).map fun (power, rest) => ('E' :: power, rest)
  | text => some ([], text)

/-- The spelling of a number without sign, and what follows it. -/
def takeUnsigned? (text : List Char) : Option (List Char × List Char) := do
  let (whole, rest) ← takeWhole? text
  let (fraction, rest) ← takeFraction? rest
  let (exponent, rest) ← takeExponent? rest
  return (whole ++ fraction ++ exponent, rest)

/-- The spelling of a number, and what follows it. -/
def takeNumber? : List Char → Option (List Char × List Char)
  | '-' :: rest => (takeUnsigned? rest).map fun (spelling, rest) => ('-' :: spelling, rest)
  | text => takeUnsigned? text

def words : List (String × Json) :=
  [("null", .null), ("true", .bool true), ("false", .bool false)]

/-- A word that is a value, and what follows it. -/
def takeWord? (text : List Char) : Option (JsonToken × List Char) :=
  words.findSome? fun (word, value) =>
    (dropWord? word.toList text).map fun rest => (.scalar value, rest)

/-- The first token of a text without blanks in front, and what follows it. -/
def take? : List Char → Option (JsonToken × List Char)
  | '\x7b' :: rest => some (.openObject, rest)
  | '\x7d' :: rest => some (.closeObject, rest)
  | '[' :: rest => some (.openArray, rest)
  | ']' :: rest => some (.closeArray, rest)
  | ':' :: rest => some (.colon, rest)
  | ',' :: rest => some (.comma, rest)
  | '"' :: rest => (takeQuoted? rest).map fun (units, rest) =>
      (.string ((QuotedUnit.text? units).map String.ofList), rest)
  | text => (takeWord? text).or
      ((takeNumber? text).map fun (spelling, rest) => (.scalar (.number spelling), rest))

/-! ## Progress -/

theorem length_lt_of_takeQuoted? {text rest : List Char} {units : List QuotedUnit}
    (taken : takeQuoted? text = some (units, rest)) : rest.length < text.length := by
  fun_induction takeQuoted? text generalizing units rest with
  | case1 after => cases taken; simp
  | case2 first second third fourth after ih =>
    simp only [bind, Option.bind_eq_some_iff, pure, Option.some.injEq, Prod.mk.injEq] at taken
    obtain ⟨_, _, ⟨units, rest⟩, inner, _, rfl⟩ := taken
    have := ih inner
    simp only [List.length_cons]
    omega
  | case3 letter after _ ih =>
    simp only [bind, Option.bind_eq_some_iff, pure, Option.some.injEq, Prod.mk.injEq] at taken
    obtain ⟨_, _, ⟨units, rest⟩, inner, _, rfl⟩ := taken
    have := ih inner
    simp only [List.length_cons]
    omega
  | case4 => cases taken
  | case5 character after _ _ _ _ ih =>
    simp only [bind, Option.bind_eq_some_iff, pure, Option.some.injEq, Prod.mk.injEq] at taken
    obtain ⟨⟨units, rest⟩, inner, _, rfl⟩ := taken
    have := ih inner
    simp only [List.length_cons]
    omega
  | case6 => cases taken

theorem takeWhole?_append {text whole rest : List Char}
    (taken : takeWhole? text = some (whole, rest)) : whole ++ rest = text ∧ whole ≠ [] := by
  unfold takeWhole? at taken
  split at taken
  · cases taken
    simp
  · exact someDigits?_append taken

/-- A first character put back in front of what was taken after it. -/
theorem append_of_map_cons {first : Char} {text taken rest : List Char}
    {found : Option (List Char × List Char)}
    (whole : ∀ {digits after}, found = some (digits, after) → digits ++ after = text)
    (mapped : (found.map fun (digits, after) => (first :: digits, after)) = some (taken, rest)) :
    taken ++ rest = first :: text := by
  obtain ⟨⟨digits, after⟩, inner, same⟩ := Option.map_eq_some_iff.mp mapped
  cases same
  exact congrArg (first :: ·) (whole inner)

theorem takeFraction?_append {text fraction rest : List Char}
    (taken : takeFraction? text = some (fraction, rest)) : fraction ++ rest = text := by
  unfold takeFraction? at taken
  split at taken
  · exact append_of_map_cons (fun found => (someDigits?_append found).1) taken
  · cases taken
    rfl

theorem takePower?_append {text power rest : List Char}
    (taken : takePower? text = some (power, rest)) : power ++ rest = text := by
  unfold takePower? at taken
  split at taken
  · exact append_of_map_cons (fun found => (someDigits?_append found).1) taken
  · exact append_of_map_cons (fun found => (someDigits?_append found).1) taken
  · exact (someDigits?_append taken).1

theorem takeExponent?_append {text exponent rest : List Char}
    (taken : takeExponent? text = some (exponent, rest)) : exponent ++ rest = text := by
  unfold takeExponent? at taken
  split at taken
  · exact append_of_map_cons takePower?_append taken
  · exact append_of_map_cons takePower?_append taken
  · cases taken
    rfl

theorem takeUnsigned?_append {text spelling rest : List Char}
    (taken : takeUnsigned? text = some (spelling, rest)) :
    spelling ++ rest = text ∧ spelling ≠ [] := by
  simp only [takeUnsigned?, bind, Option.bind_eq_some_iff, pure, Option.some.injEq,
    Prod.mk.injEq] at taken
  obtain ⟨⟨whole, first⟩, wholeTaken, ⟨fraction, second⟩, fractionTaken, ⟨exponent, third⟩,
    exponentTaken, rfl, rfl⟩ := taken
  obtain ⟨wholeText, present⟩ := takeWhole?_append wholeTaken
  have fractionText := takeFraction?_append fractionTaken
  have exponentText := takeExponent?_append exponentTaken
  dsimp only at fractionText exponentText ⊢
  exact ⟨by rw [List.append_assoc, exponentText, List.append_assoc, fractionText, wholeText],
    by simp [present]⟩

/-- A number is spelled by the characters taken, and there is at least one. -/
theorem takeNumber?_append {text spelling rest : List Char}
    (taken : takeNumber? text = some (spelling, rest)) :
    spelling ++ rest = text ∧ spelling ≠ [] := by
  unfold takeNumber? at taken
  split at taken
  · refine ⟨append_of_map_cons (fun found => (takeUnsigned?_append found).1) taken, ?_⟩
    obtain ⟨⟨digits, after⟩, _, same⟩ := Option.map_eq_some_iff.mp taken
    cases same
    simp
  · exact takeUnsigned?_append taken

theorem length_lt_of_takeWord? {text rest : List Char} {token : JsonToken}
    (taken : takeWord? text = some (token, rest)) : rest.length < text.length := by
  obtain ⟨⟨word, value⟩, member, found⟩ := List.exists_of_findSome?_eq_some taken
  obtain ⟨after, dropped, same⟩ := Option.map_eq_some_iff.mp found
  cases same
  rw [dropWord?_eq_some_iff.mp dropped, List.length_append]
  have present : 0 < word.toList.length := by
    simp only [words, List.mem_cons, Prod.mk.injEq, List.not_mem_nil, or_false] at member
    rcases member with ⟨rfl, _⟩ | ⟨rfl, _⟩ | ⟨rfl, _⟩ <;> decide
  omega

/-- Every token takes at least one character. -/
theorem length_lt_of_take? {text rest : List Char} {token : JsonToken}
    (taken : take? text = some (token, rest)) : rest.length < text.length := by
  unfold take? at taken
  split at taken
  case h_7 =>
    obtain ⟨⟨units, after⟩, inner, same⟩ := Option.map_eq_some_iff.mp taken
    cases same
    exact Nat.lt_succ_of_lt (length_lt_of_takeQuoted? inner)
  case h_8 =>
    rcases Option.or_eq_some_iff.mp taken with word | ⟨_, number⟩
    · exact length_lt_of_takeWord? word
    · obtain ⟨⟨spelling, after⟩, inner, same⟩ := Option.map_eq_some_iff.mp number
      cases same
      obtain ⟨rfl, present⟩ := takeNumber?_append inner
      have := List.length_pos_iff.mpr present
      simp only [List.length_append]
      omega
  all_goals
    cases taken
    exact Nat.lt_succ_self _

/-- The tokens of a text, if it consists of tokens and blanks. -/
def ofText? (text : List Char) : Option (List JsonToken) :=
  match _skipped : text.dropWhile isJsonBlank with
  | [] => some []
  | head :: tail =>
    match _taken : take? (head :: tail) with
    | none => none
    | some (token, rest) => (ofText? rest).map (token :: ·)
termination_by text.length
decreasing_by
  have shorter := length_lt_of_take? _taken
  have suffix := (List.dropWhile_suffix (l := text) isJsonBlank).length_le
  rw [_skipped] at suffix
  omega

end JsonToken

end ProcessFlow
