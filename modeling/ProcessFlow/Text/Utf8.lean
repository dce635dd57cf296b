/-! # Decoding UTF-8

Bytes decode to characters one after the other. A byte where no character begins is kept as an
unreadable place, and the decoding goes on with the byte after it, so what is wrong in one line of
a text does not reach into the next.
-/

namespace ProcessFlow

/-- The characters of bytes from a position on, with `none` for every unreadable byte. -/
def decodeUtf8From (bytes : ByteArray) (position : Nat) : List (Option Char) :=
  if position < bytes.size then
    match bytes.utf8DecodeChar? position with
    | some character => some character :: decodeUtf8From bytes (position + character.utf8Size)
    | none => none :: decodeUtf8From bytes (position + 1)
  else []
termination_by bytes.size - position
decreasing_by
  · have := character.utf8Size_pos
    omega
  · omega

def decodeUtf8 (bytes : ByteArray) : List (Option Char) := decodeUtf8From bytes 0

/-- The text that has been read, if nothing in it is unreadable. -/
def readableText? (content : List (Option Char)) : Option (List Char) := content.mapM id

theorem readableText?_cons (place : Option Char) (rest : List (Option Char)) :
    readableText? (place :: rest) =
      place.bind fun character => (readableText? rest).map (character :: ·) := by
  cases place with
  | none => rfl
  | some character =>
    simp only [readableText?, List.mapM_cons, id_eq, Option.bind_some]
    cases rest.mapM id <;> rfl

/-- A text is readable as itself. -/
@[simp] theorem readableText?_map_some (text : List Char) :
    readableText? (text.map some) = some text := by
  induction text with
  | nil => rfl
  | cons first rest ih => simp [readableText?_cons, ih]

/-- Readable content is nothing but the characters of its text. -/
theorem readableText?_eq_some_iff {content : List (Option Char)} {text : List Char} :
    readableText? content = some text ↔ content = text.map some := by
  constructor
  · intro read
    induction content generalizing text with
    | nil =>
      cases read
      rfl
    | cons place rest ih =>
      cases place with
      | none => simp [readableText?_cons] at read
      | some character =>
        simp only [readableText?_cons, Option.bind_some, Option.map_eq_some_iff] at read
        obtain ⟨later, read, rfl⟩ := read
        rw [ih read, List.map_cons]
  · rintro rfl
    exact readableText?_map_some text

end ProcessFlow
