/-! # Taking a known word off the front of a text -/

namespace ProcessFlow

/-- What follows a word, if the text begins with the word. -/
def dropWord? : List Char → List Char → Option (List Char)
  | [], text => some text
  | _ :: _, [] => none
  | first :: word, head :: rest => if first = head then dropWord? word rest else none

theorem dropWord?_eq_some_iff {word text rest : List Char} :
    dropWord? word text = some rest ↔ text = word ++ rest := by
  induction word generalizing text with
  | nil => simp only [dropWord?, Option.some.injEq, List.nil_append]
  | cons first word ih =>
    cases text with
    | nil => simp [dropWord?]
    | cons head text =>
      simp only [dropWord?, List.cons_append, List.cons.injEq]
      split
      · rename_i same
        simp [ih, same]
      · rename_i different
        simp [Ne.symm different]

/-- A word is taken off any text that begins with it. -/
@[simp] theorem dropWord?_append (word rest : List Char) :
    dropWord? word (word ++ rest) = some rest := dropWord?_eq_some_iff.mpr rfl

end ProcessFlow
