import ProcessFlow.Text.Digits

/-! # Blanks, comments, strings and keys of TOML

The parts of a TOML document below the values. Each reader takes a part off the front of a text and
returns it with what follows, or nothing if the text does not begin with such a part.
-/

namespace ProcessFlow

namespace Toml

def isBlank (character : Char) : Bool := character = ' ' || character = '\t'

/-- The characters of comments, which are those of strings too: all but the control characters,
of which the tab is allowed. -/
def isPlain (character : Char) : Bool :=
  character = '\t' || (0x20 ≤ character.toNat && character.toNat ≠ 0x7F)

/-- Skip blanks within a line. -/
def skipSpace (text : List Char) : List Char := text.dropWhile isBlank

def takeLineEnd? : List Char → Option (List Char)
  | '\n' :: rest => some rest
  | '\r' :: '\n' :: rest => some rest
  | _ => none

def skipLines : List Char → List Char
  | ' ' :: rest | '\t' :: rest | '\n' :: rest => skipLines rest
  | '\r' :: '\n' :: rest => skipLines rest
  | text => text

/-- Skip blanks, line ends and comments, in a text of at most the given length. -/
def skipGaps : Nat → List Char → List Char
  | 0, text => text
  | fuel + 1, text =>
    match skipLines text with
    | '#' :: rest => skipGaps fuel (rest.dropWhile isPlain)
    | text => text

/-- The end of a line after a value or a header: blanks, perhaps a comment, and the line end or the
end of the text. -/
def endLine? (text : List Char) : Option (List Char) :=
  let rest :=
    match skipSpace text with
    | '#' :: comment => comment.dropWhile isPlain
    | rest => rest
  if rest.isEmpty then some [] else takeLineEnd? rest

/-! ## Strings -/

def hexNumber? (digits : List Char) : Option Nat :=
  (digits.mapM hexValue?).map (·.foldl (fun value digit => 16 * value + digit) 0)

/-- The character of a number, which must be no surrogate. -/
def scalarChar? (number : Nat) : Option Char :=
  if number < 0xD800 ∨ 0xDFFF < number ∧ number < 0x110000 then some (Char.ofNat number) else none

/-- The character of an escape, after its backslash. -/
def takeEscape? : List Char → Option (Char × List Char)
  | 'b' :: rest => some ('\x08', rest)
  | 't' :: rest => some ('\t', rest)
  | 'n' :: rest => some ('\n', rest)
  | 'f' :: rest => some ('\x0c', rest)
  | 'r' :: rest => some ('\r', rest)
  | '"' :: rest => some ('"', rest)
  | '\\' :: rest => some ('\\', rest)
  | 'u' :: rest =>
    if rest.length < 4 then none
    else ((hexNumber? (rest.take 4)).bind scalarChar?).map fun character =>
      (character, rest.drop 4)
  | 'U' :: rest =>
    if rest.length < 8 then none
    else ((hexNumber? (rest.take 8)).bind scalarChar?).map fun character =>
      (character, rest.drop 8)
  | _ => none

/-- Put a character in front of what was taken after it. -/
def prepend (character : Char) (taken : Option (List Char × List Char)) :
    Option (List Char × List Char) :=
  taken.map fun (text, rest) => (character :: text, rest)

/-- The rest of a string in double quotes, in a text of at most the given length. -/
def takeBasic? : Nat → List Char → Option (List Char × List Char)
  | 0, _ => none
  | _ + 1, '"' :: rest => some ([], rest)
  | fuel + 1, '\\' :: rest =>
    (takeEscape? rest).bind fun (character, rest) => prepend character (takeBasic? fuel rest)
  | fuel + 1, character :: rest =>
    if isPlain character then prepend character (takeBasic? fuel rest) else none
  | _ + 1, [] => none

def takeLiteral? : List Char → Option (List Char × List Char)
  | '\'' :: rest => some ([], rest)
  | character :: rest => if isPlain character then prepend character (takeLiteral? rest) else none
  | [] => none

/-- The end of a string between threefold quotes, at which one or two quotes may still belong to the
string. -/
def takeClosing? (quote : Char) : List Char → Option (List Char × List Char)
  | first :: second :: third :: fourth :: fifth :: rest =>
    if first = quote && second = quote && third = quote then
      if fourth = quote then
        if fifth = quote then some ([quote, quote], rest) else some ([quote], fifth :: rest)
      else some ([], fourth :: fifth :: rest)
    else none
  | [first, second, third, fourth] =>
    if first = quote && second = quote && third = quote then
      if fourth = quote then some ([quote], []) else some ([], [fourth])
    else none
  | [first, second, third] =>
    if first = quote && second = quote && third = quote then some ([], []) else none
  | _ => none

/-- The text after a backslash that ends its line, without the blanks and line ends there. -/
def joinLines? (text : List Char) : Option (List Char) :=
  (takeLineEnd? (skipSpace text)).map skipLines

/-- The rest of a string between threefold quotes, in a text of at most the given length. Only in
double quotes are there escapes. -/
def takeMultiline? (quote : Char) : Nat → List Char → Option (List Char × List Char)
  | 0, _ => none
  | fuel + 1, text =>
    match takeClosing? quote text with
    | some closing => some closing
    | none =>
      match takeLineEnd? text with
      | some rest => prepend '\n' (takeMultiline? quote fuel rest)
      | none =>
        match text with
        | '\\' :: rest =>
          if quote = '"' then
            match joinLines? rest with
            | some rest => takeMultiline? quote fuel rest
            | none => (takeEscape? rest).bind fun (character, rest) =>
                prepend character (takeMultiline? quote fuel rest)
          else prepend '\\' (takeMultiline? quote fuel rest)
        | character :: rest =>
          if isPlain character then prepend character (takeMultiline? quote fuel rest) else none
        | [] => none

def dropFirstLineEnd (text : List Char) : List Char := (takeLineEnd? text).getD text

/-- A string in quotes of one of the four kinds. -/
def takeString? : List Char → Option (List Char × List Char)
  | '"' :: '"' :: '"' :: rest => takeMultiline? '"' (rest.length + 1) (dropFirstLineEnd rest)
  | '"' :: rest => takeBasic? (rest.length + 1) rest
  | '\'' :: '\'' :: '\'' :: rest => takeMultiline? '\'' (rest.length + 1) (dropFirstLineEnd rest)
  | '\'' :: rest => takeLiteral? rest
  | _ => none

/-! ## Keys -/

def isBareKeyChar (character : Char) : Bool :=
  character.isAlphanum || character = '-' || character = '_'

/-- One key: a string on one line, or a run of key characters. -/
def takeSimpleKey? (text : List Char) : Option (String × List Char) :=
  match text with
  | '"' :: rest =>
    (takeBasic? (rest.length + 1) rest).map fun (key, rest) => (String.ofList key, rest)
  | '\'' :: rest => (takeLiteral? rest).map fun (key, rest) => (String.ofList key, rest)
  | text =>
    let key := text.takeWhile isBareKeyChar
    if key.isEmpty then none else some (String.ofList key, text.dropWhile isBareKeyChar)

/-- Keys with points between them, and blanks around each, in a text of at most the given length. -/
def takeKeys? : Nat → List Char → Option (List String × List Char)
  | 0, _ => none
  | fuel + 1, text =>
    match takeSimpleKey? (skipSpace text) with
    | none => none
    | some (key, rest) =>
      match skipSpace rest with
      | '.' :: more => (takeKeys? fuel more).map fun (keys, rest) => (key :: keys, rest)
      | rest => some ([key], rest)

/-- One more than the greatest number of keys in a path, and of arrays and inline tables within one
another. -/
def depthLimit : Nat := 80

/-- A path of keys that is not too long. -/
def takePath? (text : List Char) : Option (List String × List Char) :=
  (takeKeys? (text.length + 1) text).filter fun (keys, _) => keys.length < depthLimit

end Toml

end ProcessFlow
