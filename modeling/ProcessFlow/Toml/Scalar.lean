import ProcessFlow.Calendar.Day
import ProcessFlow.Json.Basic
import ProcessFlow.Number.Binary64
import ProcessFlow.Toml.Text

/-! # Numbers, dates and words of TOML

A value is read as a JSON value. Infinity and words that are no number have no form there and are
read as null, and a date or a time is read as an object, which is neither a text nor a number.
-/

namespace ProcessFlow

namespace Toml

/-- Digits of a kind with single underscores between them; the underscores are left out. -/
def takeDigits? (isDigit : Char → Bool) : List Char → Option (List Char × List Char)
  | [] => none
  | digit :: rest =>
    if isDigit digit then
      match rest with
      | '_' :: more => prepend digit (takeDigits? isDigit more)
      | next :: more =>
        if isDigit next then prepend digit (takeDigits? isDigit (next :: more))
        else some ([digit], next :: more)
      | [] => some ([digit], [])
    else none

/-- A sign, if there is one, and what follows it. -/
def takeSign (text : List Char) : Bool × List Char :=
  match text with
  | '-' :: rest => (true, rest)
  | '+' :: rest => (false, rest)
  | text => (false, text)

def takeWhole? : List Char → Option (List Char × List Char)
  | '0' :: rest => some (['0'], rest)
  | text => takeDigits? Char.isDigit text

/-- An integer, if a word of 64 bits with sign holds it. -/
def integer? (negative : Bool) (size : Nat) : Option Json :=
  if size < 9223372036854775808 ∨ negative ∧ size = 9223372036854775808 then
    some (.number ((if negative then ['-'] else []) ++ decimal size))
  else none

/-- An integer with digits of another base than ten. -/
def takeBased? (base : Nat) (text : List Char) : Option (Json × List Char) := do
  let isDigit := fun digit => (hexValue? digit).any (· < base)
  let (digits, rest) ← takeDigits? isDigit text
  let values ← digits.mapM hexValue?
  let value ← integer? false (values.foldl (fun value digit => base * value + digit) 0)
  return (value, rest)

def takeInteger? : List Char → Option (Json × List Char)
  | '0' :: 'x' :: rest => takeBased? 16 rest
  | '0' :: 'o' :: rest => takeBased? 8 rest
  | '0' :: 'b' :: rest => takeBased? 2 rest
  | text => do
    let (negative, rest) := takeSign text
    let (digits, rest) ← takeWhole? rest
    let value ← integer? negative (decimalValue digits)
    return (value, rest)

/-- Whether the double nearest to digits times a power of ten is infinite. -/
def overflows (digits : Nat) (exponent : Int) : Bool :=
  let lead := exponent + (decimal digits).length
  if digits = 0 || lead < 309 then false
  else if 309 < lead then true
  else (Binary64.ofRatio false (digits * Nat.pow 10 exponent.toNat)
    (Nat.pow 10 (-exponent).toNat)).isInfinite

def takeExponent? : List Char → Option (Int × List Char)
  | letter :: rest =>
    if letter = 'e' || letter = 'E' then do
      let (negative, rest) := takeSign rest
      let (digits, rest) ← takeDigits? Char.isDigit rest
      let size : Int := decimalValue digits
      return (if negative then -size else size, rest)
    else none
  | [] => none

/-- The fraction of a number, and its exponent. -/
def takeFraction? : List Char → Option ((List Char × Int) × List Char)
  | '.' :: rest => do
    let (digits, rest) ← takeDigits? Char.isDigit rest
    match rest with
    | 'e' :: _ | 'E' :: _ =>
      let (exponent, rest) ← takeExponent? rest
      return ((digits, exponent), rest)
    | rest => return ((digits, 0), rest)
  | text => (takeExponent? text).map fun (exponent, rest) => (([], exponent), rest)

/-- A number with a fraction or an exponent. A positive one must not be too large for a double. -/
def takeFloat? (text : List Char) : Option (Json × List Char) := do
  let (negative, rest) := takeSign text
  let (whole, rest) ← takeWhole? rest
  let ((fraction, exponent), rest) ← takeFraction? rest
  let digits := decimalValue (whole ++ fraction)
  if !negative && overflows digits (exponent - fraction.length) then none
  else
    some (.number ((if negative then ['-'] else []) ++ decimal digits ++ 'e' ::
      (toString (exponent - fraction.length)).toList), rest)

/-- Infinity, or a word that is no number. -/
def takeSpecial? (text : List Char) : Option (Json × List Char) :=
  match (takeSign text).2 with
  | 'i' :: 'n' :: 'f' :: rest => some (.null, rest)
  | 'n' :: 'a' :: 'n' :: rest => some (.null, rest)
  | _ => none

/-! ## Dates and times -/

/-- What stands for a date or a time. -/
def moment : Json := .record [("date-time", .null)]

/-- A number of so many digits within a range. -/
def takeField? (width least greatest : Nat) (text : List Char) : Option (Nat × List Char) :=
  let (digits, rest) := takeDigits width text
  let value := decimalValue digits
  if digits.length = width && least ≤ value && value ≤ greatest then some (value, rest) else none

def takeMark? (mark : Char) : List Char → Option (List Char)
  | head :: rest => if head = mark then some rest else none
  | [] => none

def takeDate? (text : List Char) : Option (List Char) := do
  let (year, rest) ← takeField? 4 0 9999 text
  let (month, rest) ← takeField? 2 1 12 (← takeMark? '-' rest)
  let (_, rest) ← takeField? 2 1 (CivilDate.daysInMonth year month) (← takeMark? '-' rest)
  return rest

def takeTime? (text : List Char) : Option (List Char) := do
  let (_, rest) ← takeField? 2 0 23 text
  let (_, rest) ← takeField? 2 0 59 (← takeMark? ':' rest)
  let (_, rest) ← takeField? 2 0 60 (← takeMark? ':' rest)
  match rest with
  | '.' :: digits => return (← someDigits? digits).2
  | rest => return rest

/-- The rest after the distance from universal time, which may be left out. -/
def takeOffset? (text : List Char) : Option (List Char) :=
  match text with
  | 'Z' :: rest | 'z' :: rest => some rest
  | '+' :: rest | '-' :: rest => do
    let (_, rest) ← takeField? 2 0 23 rest
    let (_, rest) ← takeField? 2 0 59 (← takeMark? ':' rest)
    return rest
  | rest => some rest

/-- A date, a time of day, or both. -/
def takeMoment? (text : List Char) : Option (Json × List Char) :=
  match takeDate? text with
  | some (delimiter :: rest) =>
    if delimiter = 'T' || delimiter = 't' || delimiter = ' ' then
      match takeTime? rest with
      | some rest => (takeOffset? rest).map fun rest => (moment, rest)
      | none => some (moment, delimiter :: rest)
    else some (moment, delimiter :: rest)
  | some [] => some (moment, [])
  | none => (takeTime? text).map fun rest => (moment, rest)

def takeWord? : List Char → Option (Json × List Char)
  | 't' :: 'r' :: 'u' :: 'e' :: rest => some (.bool true, rest)
  | 'f' :: 'a' :: 'l' :: 's' :: 'e' :: rest => some (.bool false, rest)
  | _ => none

/-- A value that is no string, array or table. -/
def takeScalar? (text : List Char) : Option (Json × List Char) :=
  (takeMoment? text).or ((takeFloat? text).or ((takeInteger? text).or
    ((takeSpecial? text).or (takeWord? text))))

end Toml

end ProcessFlow
