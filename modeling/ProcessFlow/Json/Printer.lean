import ProcessFlow.Json.Basic
import ProcessFlow.Number.Shortest

/-! # Writing JSON

Values are written on one line without blanks. Quotes, backslashes and control characters of strings
are escaped, with the short escape where there is one.
-/

namespace ProcessFlow

namespace Json

/-- The digit of a number below sixteen, in small letters. -/
def hexDigit (value : Nat) : Char := Nat.digitChar (value % 16)

def escaped (character : Char) : List Char :=
  match character with
  | '"' => ['\\', '"']
  | '\\' => ['\\', '\\']
  | '\n' => ['\\', 'n']
  | '\r' => ['\\', 'r']
  | '\t' => ['\\', 't']
  | '\x08' => ['\\', 'b']
  | '\x0c' => ['\\', 'f']
  | character =>
    if character.toNat < 0x20 then
      ['\\', 'u', '0', '0', hexDigit (character.toNat / 16), hexDigit character.toNat]
    else [character]

/-- A string in quotes. A string without text is written as one unpaired surrogate. -/
def quoted : Option String → List Char
  | some text => '"' :: text.toList.flatMap escaped ++ ['"']
  | none => "\"\\ud800\"".toList

mutual

def chars : Json → List Char
  | .null => "null".toList
  | .bool true => "true".toList
  | .bool false => "false".toList
  | .number spelling => spelling
  | .string text => quoted text
  | .array items => '[' :: itemChars items ++ [']']
  | .object members => '\x7b' :: memberChars members ++ ['\x7d']

def itemChars : List Json → List Char
  | [] => []
  | [item] => item.chars
  | item :: rest => item.chars ++ ',' :: itemChars rest

def memberChars : List (Option String × Json) → List Char
  | [] => []
  | [(name, value)] => quoted name ++ ':' :: value.chars
  | (name, value) :: rest => quoted name ++ ':' :: value.chars ++ ',' :: memberChars rest

end

def text (value : Json) : String := String.ofList value.chars

/-- A double as a number, or as null if it is not finite. -/
def ofDouble (number : Binary64) : Json :=
  if number.isFinite then .number (NumberLayout.json.text number).toList else .null

end Json

end ProcessFlow
