import Mathlib
import ProcessFlow.Precondition.Token
import ProcessFlow.Proofs.Identifier

/-! # Spelled tokens

A text spells tokens when it consists of their spellings in order, with any number of blanks after
each. A text of a precondition may also begin with blanks. `cutTokens_of_spells` finds the tokens of
a spelled text again, and `spells_of_cutTokens` says that whatever is cut to its end was spelled.
-/

namespace ProcessFlow

/-- A name has a character, and only characters of identifiers. -/
def Token.Lawful : Token → Prop
  | .name text => isIdName text = true
  | _ => True

/-- The tokens stand in the text in this order, each followed by any number of blanks. -/
inductive Spells : List Token → List Char → Prop
  | nil : Spells [] []
  | cons {token : Token} {tokens : List Token} {blanks text : List Char} (lawful : token.Lawful)
      (blank : Blank blanks) (rest : Spells tokens text) :
      Spells (token :: tokens) (token.spelling ++ blanks ++ text)

/-- The text spells the tokens after any number of blanks. -/
def Writes (tokens : List Token) (text : List Char) : Prop :=
  ∃ blanks rest, Blank blanks ∧ text = blanks ++ rest ∧ Spells tokens rest

/-- Each name is followed by a closing parenthesis. -/
def NamesClosed : List Token → Prop
  | [] => True
  | .name _ :: rest => rest.head? = some .closeParen ∧ NamesClosed rest
  | _ :: rest => NamesClosed rest

/-! ## One token -/

namespace Token

theorem lawful_of_mem_fixed {token : Token} (member : token ∈ fixed) : token.Lawful := by
  simp only [fixed, List.mem_cons, List.not_mem_nil, or_false] at member
  rcases member with rfl | rfl | rfl | rfl | rfl | rfl | rfl | rfl | rfl <;> exact trivial

theorem isIdChar_of_mem_nameFront {text : List Char} {character : Char}
    (member : character ∈ nameFront text) : isIdChar character = true := by
  have names := List.all_eq_true.mp (List.all_takeWhile (p := isIdChar) (l := text))
  simp only [nameFront] at member
  split at member
  · exact names character ((List.dropLast_sublist _).subset member)
  · exact names character member

/-- The cutting takes off lawful tokens only. -/
theorem lawful_of_take? {text rest : List Char} {token : Token}
    (taken : take? text = some (token, rest)) : token.Lawful := by
  rcases Option.or_eq_some_iff.mp taken with fixedTaken | ⟨_, nameTaken⟩
  · exact lawful_of_mem_fixed (takeFixed?_eq_some fixedTaken).1
  · simp only [takeName?] at nameTaken
    split at nameTaken
    · cases nameTaken
    · rename_i solid
      cases nameTaken
      simp only [Lawful, isIdName, Bool.and_eq_true, Bool.not_eq_true', List.isEmpty_eq_false_iff,
        List.all_eq_true]
      exact ⟨solid, fun _ => isIdChar_of_mem_nameFront⟩

theorem takeFixed?_spelling {token : Token} (member : token ∈ fixed) (rest : List Char) :
    takeFixed? (token.spelling ++ rest) = some (token, rest) := by
  simp only [fixed, List.mem_cons, List.not_mem_nil, or_false] at member
  rcases member with rfl | rfl | rfl | rfl | rfl | rfl | rfl | rfl | rfl <;>
    simp [takeFixed?, fixed, spelling, dropWord?]

/-- No token of a fixed spelling begins with a character of names. -/
theorem takeFixed?_eq_none {first : Char} (name : isIdChar first = true) (rest : List Char) :
    takeFixed? (first :: rest) = none := by
  have code := code_of_isIdChar name
  have apart (sign : Char) (other : sign.toNat < 45 ∨ 47 = sign.toNat ∨ 91 ≤ sign.toNat ∧
      sign.toNat < 95 ∨ 122 < sign.toNat) : sign ≠ first := by
    rintro rfl
    omega
  simp [takeFixed?, fixed, spelling, dropWord?, apart '(' (by decide), apart ')' (by decide),
    apart '!' (by decide), apart '&' (by decide), apart '|' (by decide), apart '*' (by decide),
    apart '\\' (by decide)]

/-- A name ends where no character of names follows and no arrow begins. -/
theorem nameFront_append {name rest : List Char} (names : ∀ character ∈ name, isIdChar character = true)
    (ends : ∀ character ∈ rest.head?, isIdChar character = false ∧ character ≠ '>') :
    nameFront (name ++ rest) = name := by
  have stop : rest.takeWhile isIdChar = [] ∧ rest.dropWhile isIdChar = rest := by
    cases rest with
    | nil => exact ⟨rfl, rfl⟩
    | cons head rest => simp [(ends head rfl).1]
  have noArrow : rest.head? ≠ some '>' := fun arrow => (ends '>' arrow).2 rfl
  simp only [nameFront, List.takeWhile_append_of_pos names, List.dropWhile_append_of_pos names, stop,
    List.append_nil, noArrow, and_false, if_false]

/-- A lawful token is taken off a text that begins with it, if a name among them ends there. -/
theorem take?_spelling {token : Token} (lawful : token.Lawful) {rest : List Char}
    (ends : ∀ name, token = .name name →
      ∀ character ∈ rest.head?, isIdChar character = false ∧ character ≠ '>') :
    take? (token.spelling ++ rest) = some (token, rest) := by
  by_cases member : token ∈ fixed
  · rw [take?, takeFixed?_spelling member, Option.some_or]
  · cases token with
    | name text =>
      simp only [Lawful, isIdName, Bool.and_eq_true, Bool.not_eq_true', List.all_eq_true] at lawful
      obtain ⟨solid, names⟩ := lawful
      obtain ⟨first, others, rfl⟩ := List.exists_cons_of_ne_nil (List.isEmpty_eq_false_iff.mp solid)
      have front : nameFront (first :: others ++ rest) = first :: others :=
        nameFront_append names (ends _ rfl)
      have notFixed := takeFixed?_eq_none (names first (List.mem_cons_self ..)) (others ++ rest)
      rw [take?, spelling, List.cons_append, notFixed, Option.none_or, ← List.cons_append, takeName?,
        front]
      simp
    | _ => simp [fixed] at member

end Token

/-! ## All tokens -/

/-- A text that is cut to its end spells the tokens cut off. -/
theorem spells_of_cutTokens {text : List Char} (whole : (cutTokens text).2 = []) :
    Spells ((cutTokens text).1.map (·.token)) text := by
  fun_induction cutTokens text with
  | case1 text none =>
    cases whole
    exact .nil
  | case2 text token rest taken others ih =>
    have spelled := Spells.cons (Token.lawful_of_take? taken) (blank_takeWhile rest) (ih whole)
    rw [List.append_assoc, takeWhile_append_skipBlank, ← (Token.take?_eq_some taken).1] at spelled
    exact spelled

/-- What is spelled begins with no blank, and with no sign of an arrow. -/
theorem Spells.head_solid {tokens : List Token} {text : List Char} (spells : Spells tokens text)
    {character : Char} (first : text.head? = some character) :
    isBlank character = false ∧ character ≠ '>' ∧
      (isIdChar character = true → ∃ name rest, tokens = .name name :: rest) := by
  cases spells with
  | nil => cases first
  | cons lawful blank rest =>
    rename_i token tokens blanks text
    cases token with
    | name name =>
      simp only [Token.Lawful, isIdName, Bool.and_eq_true, Bool.not_eq_true', List.all_eq_true]
        at lawful
      obtain ⟨solid, names⟩ := lawful
      obtain ⟨head, others, rfl⟩ := List.exists_cons_of_ne_nil (List.isEmpty_eq_false_iff.mp solid)
      cases first
      have isName := names character (List.mem_cons_self ..)
      refine ⟨?_, ?_, fun _ => ⟨_, _, rfl⟩⟩
      · by_contra blank
        rw [not_isIdChar_of_isBlank (Bool.not_eq_false _ |>.mp blank)] at isName
        cases isName
      · rintro rfl
        exact absurd isName (by decide)
    | _ =>
      cases first
      exact ⟨by decide, by decide, fun isName => absurd isName (by decide)⟩

theorem Spells.skipBlank_eq {tokens : List Token} {text : List Char} (spells : Spells tokens text) :
    skipBlank text = text := by
  cases text with
  | nil => rfl
  | cons first rest => exact skipBlank_cons_of_not_blank (spells.head_solid rfl).1

theorem NamesClosed.tail {token : Token} {tokens : List Token} (closed : NamesClosed (token :: tokens)) :
    NamesClosed tokens := by
  cases token with
  | name text => exact closed.2
  | _ => exact closed

theorem NamesClosed.append {left right : List Token} (closedLeft : NamesClosed left)
    (closedRight : NamesClosed right) : NamesClosed (left ++ right) := by
  induction left with
  | nil => exact closedRight
  | cons token rest ih =>
    cases token with
    | name text =>
      obtain ⟨next, closed⟩ := closedLeft
      refine ⟨?_, ih closed⟩
      change (rest ++ right).head? = some .closeParen
      rw [List.head?_append, next, Option.some_or]
    | _ => exact ih closedLeft

theorem cutTokens_of_take? {text rest : List Char} {token : Token}
    (taken : Token.take? text = some (token, rest)) : cutTokens text =
      (⟨token, text⟩ :: (cutTokens (skipBlank rest)).1, (cutTokens (skipBlank rest)).2) := by
  rw [cutTokens]
  split
  · rename_i none
    rw [taken] at none
    cases none
  · rename_i found
    rw [taken] at found
    cases found
    rfl

/-- Cutting finds the tokens of a spelled text in which no name runs into another. -/
theorem cutTokens_of_spells {tokens : List Token} {text : List Char} (spells : Spells tokens text)
    (closed : NamesClosed tokens) :
    (cutTokens text).1.map (·.token) = tokens ∧ (cutTokens text).2 = [] := by
  induction spells with
  | nil =>
    rw [cutTokens]
    exact ⟨rfl, rfl⟩
  | cons lawful blank rest ih =>
    rename_i token tokens blanks text
    have ends : ∀ name, token = .name name →
        ∀ character ∈ (blanks ++ text).head?, isIdChar character = false ∧ character ≠ '>' := by
      rintro name rfl character first
      cases blanks with
      | nil =>
        obtain ⟨_, noArrow, isName⟩ := rest.head_solid first
        refine ⟨?_, noArrow⟩
        by_contra name
        obtain ⟨_, _, rfl⟩ := isName (Bool.not_eq_false _ |>.mp name)
        cases closed.1
      | cons head others =>
        cases first
        have isBlank := blank character (List.mem_cons_self ..)
        refine ⟨not_isIdChar_of_isBlank isBlank, ?_⟩
        rintro rfl
        exact absurd isBlank (by decide)
    have taken := Token.take?_spelling lawful ends
    rw [List.append_assoc, cutTokens_of_take? taken, skipBlank_append blank, rest.skipBlank_eq]
    obtain ⟨tokensCut, nothingLeft⟩ := ih closed.tail
    exact ⟨congrArg (token :: ·) tokensCut, nothingLeft⟩

/-- The tokens of a written text. -/
theorem cutTokens_of_writes {tokens : List Token} {text : List Char} (writes : Writes tokens text)
    (closed : NamesClosed tokens) :
    (cutTokens (skipBlank text)).1.map (·.token) = tokens ∧ (cutTokens (skipBlank text)).2 = [] := by
  obtain ⟨blanks, rest, blank, rfl, spells⟩ := writes
  rw [skipBlank_append blank, spells.skipBlank_eq]
  exact cutTokens_of_spells spells closed

theorem writes_of_cutTokens {text : List Char} (whole : (cutTokens (skipBlank text)).2 = []) :
    Writes ((cutTokens (skipBlank text)).1.map (·.token)) text :=
  ⟨_, _, blank_takeWhile text, (takeWhile_append_skipBlank text).symm, spells_of_cutTokens whole⟩

end ProcessFlow
