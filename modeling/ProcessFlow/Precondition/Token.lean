import ProcessFlow.Precondition.Basic
import ProcessFlow.Text.Front

/-! # Tokens of the precondition language

A text is cut into tokens, each followed by any number of blanks. A name takes as many identifier
characters as there are, except that it leaves a last `-` which a `>` follows, for the two begin an
arrow. Cutting stops where no token begins.
-/

namespace ProcessFlow

/-- A word or sign of the precondition language. -/
inductive Token where
  | openParen
  | closeParen
  | bang
  | both
  | either
  | execOpen
  | completeOpen
  | star
  | always
  | name (text : List Char)
deriving DecidableEq

def Token.spelling : Token → List Char
  | .openParen => ['(']
  | .closeParen => [')']
  | .bang => ['!']
  | .both => ['&', '&']
  | .either => ['|', '|']
  | .execOpen => ['\\', 'e', 'x', 'e', 'c', '(']
  | .completeOpen => ['\\', 'c', 'o', 'm', 'p', 'l', 'e', 't', 'e', '(']
  | .star => ['*']
  | .always => ['\\', 't', 'r', 'u', 'e']
  | .name text => text

/-- The tokens with one spelling; none of them begins like another. -/
def Token.fixed : List Token :=
  [.openParen, .closeParen, .bang, .both, .either, .execOpen, .completeOpen, .star, .always]

/-- A token with the text from its first character on. -/
structure Lexeme where
  token : Token
  text : List Char

namespace Token

def takeFixed? (text : List Char) : Option (Token × List Char) :=
  fixed.findSome? fun token => (dropWord? token.spelling text).map fun rest => (token, rest)

/-- The longest name at the front of a text, without a last `-` that begins an arrow. -/
def nameFront (text : List Char) : List Char :=
  let name := text.takeWhile isIdChar
  if name.getLast? = some '-' ∧ (text.dropWhile isIdChar).head? = some '>' then name.dropLast
  else name

theorem nameFront_prefix (text : List Char) : nameFront text <+: text := by
  simp only [nameFront]
  split
  · exact (List.dropLast_prefix _).trans (List.takeWhile_prefix _)
  · exact List.takeWhile_prefix _

def takeName? (text : List Char) : Option (Token × List Char) :=
  let name := nameFront text
  if name = [] then none else some (.name name, text.drop name.length)

def take? (text : List Char) : Option (Token × List Char) :=
  (takeFixed? text).or (takeName? text)

theorem spelling_ne_nil_of_fixed {token : Token} (member : token ∈ fixed) :
    token.spelling ≠ [] := by
  simp only [fixed, List.mem_cons, List.not_mem_nil, or_false] at member
  rcases member with rfl | rfl | rfl | rfl | rfl | rfl | rfl | rfl | rfl <;> simp [spelling]

theorem takeFixed?_eq_some {text rest : List Char} {token : Token}
    (success : takeFixed? text = some (token, rest)) :
    token ∈ fixed ∧ text = token.spelling ++ rest := by
  obtain ⟨candidate, member, taken⟩ := List.exists_of_findSome?_eq_some success
  obtain ⟨remaining, isPrefix, pair⟩ := Option.map_eq_some_iff.mp taken
  cases pair
  exact ⟨member, dropWord?_eq_some_iff.mp isPrefix⟩

/-- The name and what it leaves are the text. -/
theorem takeName?_eq_some {text rest : List Char} {token : Token}
    (success : takeName? text = some (token, rest)) :
    ∃ name, token = .name name ∧ name ≠ [] ∧ text = name ++ rest := by
  simp only [takeName?] at success
  obtain ⟨remaining, whole⟩ := nameFront_prefix text
  split at success
  · cases success
  · rename_i solid
    simp only [Option.some.injEq, Prod.mk.injEq] at success
    refine ⟨_, success.1.symm, solid, ?_⟩
    have left : text.drop (nameFront text).length = remaining := by
      conv => lhs; arg 2; rw [← whole]
      exact List.drop_left
    rw [← success.2, left, whole]

/-- The spelling of the token and what is left are the text. -/
theorem take?_eq_some {text rest : List Char} {token : Token}
    (success : take? text = some (token, rest)) :
    text = token.spelling ++ rest ∧ token.spelling ≠ [] := by
  rcases Option.or_eq_some_iff.mp success with fixedTaken | ⟨_, nameTaken⟩
  · obtain ⟨member, whole⟩ := takeFixed?_eq_some fixedTaken
    exact ⟨whole, spelling_ne_nil_of_fixed member⟩
  · obtain ⟨name, rfl, solid, whole⟩ := takeName?_eq_some nameTaken
    exact ⟨whole, solid⟩

theorem length_lt_of_take? {text rest : List Char} {token : Token}
    (success : take? text = some (token, rest)) : rest.length < text.length := by
  obtain ⟨rfl, solid⟩ := take?_eq_some success
  have := List.length_pos_iff.mpr solid
  simp only [List.length_append]
  omega

end Token

/-- Cut a text into its tokens; beside them stands the text where cutting stops. -/
def cutTokens (text : List Char) : List Lexeme × List Char :=
  match _taken : Token.take? text with
  | none => ([], text)
  | some (token, rest) =>
    let others := cutTokens (skipBlank rest)
    (⟨token, text⟩ :: others.1, others.2)
termination_by text.length
decreasing_by
  exact Nat.lt_of_le_of_lt (length_skipBlank_le rest) (Token.length_lt_of_take? _taken)

end ProcessFlow
