import Mathlib
import ProcessFlow.Proofs.Precondition.Completion
import ProcessFlow.Proofs.Precondition.Cursor
import ProcessFlow.Proofs.Precondition.Language

/-! # Where reading stops

When a text is refused, what stands before the place of the error is no reason for it: that part can be
continued to a text that is read, with whatever the error says was expected there, and where the end was
expected it is read as it is. The place of an error lies between two characters of the text, and it is
one that the operations of a scanner come to.
-/

namespace ProcessFlow

variable {context : ProcessId}

/-- The text is what the expectation asks for. The end of a text is no text. -/
inductive Expected.Names : Expected → String → Prop
  | closeParen : Names .closeParen ")"
  | process (id : ProcessId) (valid : id.Valid) : Names .process id.text
  | star : Names .deliverable "*"
  | deliverable (id : DeliverableId) (valid : id.Valid) : Names .deliverable id.text
  | primary {opener : String} (member : opener ∈ ["(", "!", "\\complete(", "\\exec(", "\\true"]) :
    Names .primary opener

/-- What an expectation names is the spelling of a token that it admits. -/
theorem Expected.Names.exists_token {expected : Expected} {text : String}
    (names : expected.Names text) :
    ∃ token, token.Lawful ∧ token.spelling = text.toList ∧ expected.Admits token := by
  cases names with
  | closeParen => exact ⟨.closeParen, trivial, rfl, rfl⟩
  | process id valid => exact ⟨.name id.text.toList, valid, rfl, _, rfl⟩
  | star => exact ⟨.star, trivial, rfl, .inl rfl⟩
  | deliverable id valid => exact ⟨.name id.text.toList, valid, rfl, .inr ⟨_, rfl⟩⟩
  | primary member =>
    have opens : ∀ opener ∈ ["(", "!", "\\complete(", "\\exec(", "\\true"],
        ∃ token ∈ Token.openers, token.spelling = opener.toList := by decide
    have lawful : ∀ token ∈ Token.openers, token.Lawful := by simp [Token.openers, Token.Lawful]
    obtain ⟨token, opener, spelled⟩ := opens _ member
    exact ⟨token, lawful token opener, spelled, opener⟩

/-! ## Spelling one part after the other -/

theorem Spells.append {left right : List Token} {text more : List Char} (first : Spells left text)
    (second : Spells right more) : Spells (left ++ right) (text ++ more) := by
  induction first with
  | nil => exact second
  | cons lawful blank _ ih =>
    rw [List.append_assoc, List.cons_append]
    exact .cons lawful blank ih

theorem Writes.append {left right : List Token} {text more : List Char} (first : Writes left text)
    (second : Spells right more) : Writes (left ++ right) (text ++ more) := by
  obtain ⟨blanks, rest, blank, rfl, spells⟩ := first
  exact ⟨blanks, rest ++ more, blank, List.append_assoc .., spells.append second⟩

/-- Lawful tokens are spelled without blanks. -/
theorem spells_flatMap_spelling {tokens : List Token} (lawful : ∀ token ∈ tokens, token.Lawful) :
    Spells tokens (tokens.flatMap Token.spelling) := by
  induction tokens with
  | nil => exact .nil
  | cons token rest ih =>
    obtain ⟨first, others⟩ := List.forall_mem_cons.mp lawful
    have blank : Blank [] := nofun
    have spells := Spells.cons first blank (ih others)
    rwa [List.append_nil] at spells

/-! ## The place of an error -/

/-- Where lexemes begin; without any, this is where cutting stopped. -/
def beginningOf (stop : List Char) (lexemes : List Lexeme) : List Char :=
  (lexemes.head?.map Lexeme.text).getD stop

/-- A reading stops before the first token that it cannot read, or before the end. -/
theorem Reading.run_eq_error {reading : Reading} {stop rest : List Char} {lexemes : List Lexeme}
    {expected : Expected} (failure : run context stop reading lexemes = .error (rest, expected)) :
    ∃ seen others last, lexemes = seen ++ others ∧ rest = beginningOf stop others ∧
      steps? context reading (seen.map (·.token)) = some last ∧ last.expected = expected := by
  induction lexemes generalizing reading with
  | nil =>
    refine ⟨[], [], reading, rfl, ?_⟩
    rw [run] at failure
    split at failure
    · split at failure <;> cases failure
      exact ⟨rfl, rfl, rfl⟩
    · cases failure
      exact ⟨rfl, rfl, rfl⟩
  | cons lexeme others ih =>
    rw [run] at failure
    split at failure
    · rename_i next step
      obtain ⟨seen, later, last, rfl, place, run, waits⟩ := ih failure
      refine ⟨lexeme :: seen, later, last, rfl, place, ?_, waits⟩
      rw [List.map_cons, steps?, step, Option.bind_some, run]
    · cases failure
      exact ⟨[], _, reading, rfl, rfl, rfl, rfl⟩

/-- What stands before some of the tokens of a text spells the tokens before them, and the operations of
a scanner come to that place. -/
theorem exists_spelled {all text : List Char} (within : text <:+ all) {seen others : List Lexeme}
    (cut : (cutTokens text).1 = seen ++ others) :
    ∃ consumed operations, text = consumed ++ beginningOf (cutTokens text).2 others ∧
      Spells (seen.map (·.token)) consumed ∧
      (Cursor.before all text).performAll? operations =
        some (.before all (beginningOf (cutTokens text).2 others)) := by
  fun_induction cutTokens text generalizing seen with
  | case1 text none =>
    obtain ⟨rfl, rfl⟩ := List.append_eq_nil_iff.mp cut.symm
    exact ⟨[], [], rfl, .nil, rfl⟩
  | case2 text token rest taken following ih =>
    cases seen with
    | nil =>
      obtain rfl : _ = others := cut
      exact ⟨[], [], rfl, .nil, rfl⟩
    | cons lexeme seen =>
      obtain ⟨rfl, cutRest⟩ := List.cons.inj cut
      have shape := (Token.take?_eq_some taken).1
      have suffix : rest <:+ text := shape ▸ List.suffix_append ..
      obtain ⟨consumed, operations, whole, spells, moved⟩ :=
        ih ((skipBlank_suffix rest).trans (suffix.trans within)) cutRest
      obtain ⟨operation, first⟩ := Cursor.exists_perform?_of_take? within taken
      refine ⟨token.spelling ++ rest.takeWhile isBlank ++ consumed, operation :: operations, ?_,
        .cons (Token.lawful_of_take? taken) (blank_takeWhile rest) spells, ?_⟩
      · rw [shape, List.append_assoc, List.append_assoc, ← whole, takeWhile_append_skipBlank]
      · rw [Cursor.performAll?, List.foldlM_cons, first]
        exact moved

namespace Precondition

/-- A refused text has a first part that is written with the tokens read before the error. -/
theorem exists_consumed {text rest : List Char} {expected : Expected}
    (failure : ofChars? context text = .error (rest, expected)) :
    ∃ consumed seen last operations, text = consumed ++ rest ∧ Writes seen consumed ∧
      Reading.steps? context .initial seen = some last ∧ last.expected = expected ∧
      (Cursor.start text).performAll? operations = some (.before text rest) := by
  obtain ⟨seen, others, last, cut, rfl, run, waits⟩ := Reading.run_eq_error failure
  obtain ⟨consumed, operations, whole, spells, moved⟩ := exists_spelled (skipBlank_suffix text) cut
  refine ⟨text.takeWhile isBlank ++ consumed, _, last, .takeWhile isBlank :: operations, ?_,
    ⟨_, consumed, blank_takeWhile text, rfl, spells⟩, run, waits, ?_⟩
  · rw [List.append_assoc, ← whole, takeWhile_append_skipBlank]
  · have blanks := Cursor.takeWhile?_before (List.suffix_refl text) isBlank
    rw [Cursor.start_eq, Cursor.performAll?, List.foldlM_cons, Cursor.perform?, blanks]
    exact moved

theorem exists_parse?_of_completes {text : String} {tokens : List Token}
    (writes : Writes tokens text.toList) (completes : Reading.initial.Completes context tokens) :
    ∃ meaning, parse? context text = .ok meaning := by
  obtain ⟨cut, whole⟩ := cutTokens_of_writes writes completes.namesClosed
  obtain ⟨last, meaning, run, ended⟩ := completes
  exact ⟨meaning, parse?_eq_ok_iff.mpr ⟨whole, last, by rw [cut, run], ended⟩⟩

/-- The text consumed before an error is read as it is where its end was expected, and goes on to a
text that is read with whatever else was expected. -/
structure Viable (context : ProcessId) (consumed : String) (expected : Expected) : Prop where
  ended : expected = .endOfInput → ∃ meaning, parse? context consumed = .ok meaning
  continued : ∀ next, expected.Names next → ∃ completion meaning,
    parse? context (consumed ++ next ++ completion) = .ok meaning

theorem viable_of_steps? {consumed : String} {seen : List Token} {last : Reading}
    (writes : Writes seen consumed.toList)
    (run : Reading.steps? context .initial seen = some last) :
    Viable context consumed last.expected where
  ended waits := by
    have completes := Reading.Completes.append run (Reading.completes_of_endOfInput waits)
    rw [List.append_nil] at completes
    exact exists_parse?_of_completes writes completes
  continued next names := by
    obtain ⟨token, lawful, spelled, admitted⟩ := names.exists_token
    obtain ⟨more, lawfulMore, completes⟩ : last.Continues context token :=
      Reading.continues_of_admits admitted
    have spells := spells_flatMap_spelling (List.forall_mem_cons.mpr ⟨lawful, lawfulMore⟩)
    obtain ⟨meaning, read⟩ : ∃ meaning, parse? context
        (consumed ++ next ++ String.ofList (more.flatMap Token.spelling)) = .ok meaning := by
      apply exists_parse?_of_completes _ (Reading.Completes.append run completes)
      rw [String.toList_append, String.toList_append, String.toList_ofList, ← spelled,
        List.append_assoc]
      exact writes.append spells
    exact ⟨_, meaning, read⟩

/-- The bytes of a text are those of its characters. -/
theorem utf8Length_toList (text : String) : utf8Length text.toList = text.utf8ByteSize := by
  have lengths (characters : List Char) :
      utf8Length characters = String.utf8Len characters := by
    induction characters with
    | nil => rfl
    | cons head rest ih => rw [utf8Length, ih, String.utf8Len_cons, Nat.add_comm]
  rw [lengths, String.utf8Len_toList]

/-- A cursor with this rest stands where what comes before it ends. -/
theorem exists_before {text : String} {rest : List Char} (within : rest <:+ text.toList) :
    ∃ front, text = front ++ String.ofList rest ∧
      (Cursor.before text.toList rest).offset = front.utf8ByteSize := by
  obtain ⟨front, whole⟩ := within
  have text_eq : text = String.ofList front ++ String.ofList rest := by
    rw [← String.ofList_append, whole, String.ofList_toList]
  refine ⟨String.ofList front, text_eq, ?_⟩
  have size := utf8Length_toList (String.ofList front)
  rw [String.toList_ofList] at size
  simp only [Cursor.before, ← whole, utf8Length_append]
  omega

theorem isValid_of_append {text front rest : String} (whole : text = front ++ rest) :
    (String.Pos.Raw.mk front.utf8ByteSize).IsValid text :=
  String.Pos.Raw.isValid_iff_exists_append.mpr ⟨front, rest, whole, rfl⟩

/-- The error is one of reading the text. Its place lies between two characters, or at an end, the
operations of a scanner come to it, and what stands before it is viable. -/
structure StopsViably (context : ProcessId) (text : String) (error : SyntaxError) : Prop where
  input : error.input = text
  inside : error.position ≤ text.utf8ByteSize
  between : (String.Pos.Raw.mk error.position).IsValid text
  reached : ∃ operations, (Cursor.start text.toList).performAll? operations =
    some ⟨text.toList, error.position⟩
  viable : ∃ consumed rest, text = consumed ++ rest ∧ consumed.utf8ByteSize = error.position ∧
    Viable context consumed error.expected

/-- A text that is refused is refused for what stands behind the place of the error, and no operation
of a scanner, in any order of them, asks for a cut within a character or beyond the end. -/
theorem parse?_error_viable (context : ProcessId) (text : String) :
    (∀ error, parse? context text = .error error → StopsViably context text error) ∧
    ∀ operations, ∃ cursor, (Cursor.start text.toList).performAll? operations = some cursor ∧
      cursor.text = text.toList ∧ (String.Pos.Raw.mk cursor.offset).IsValid text := by
  constructor
  · intro error refused
    rw [parse?] at refused
    split at refused
    · cases refused
    · rename_i rest expected failure
      obtain ⟨consumed, seen, last, operations, whole, writes, run, rfl, moved⟩ :=
        exists_consumed failure
      obtain ⟨front, joined, place⟩ := exists_before (whole ▸ List.suffix_append consumed rest)
      have same : front.toList = consumed := by
        rw [joined, String.toList_append, String.toList_ofList] at whole
        exact List.append_cancel_right whole
      have viable : Viable context front last.expected := viable_of_steps? (same ▸ writes) run
      have between := isValid_of_append joined
      rw [← place] at between
      cases refused
      exact ⟨rfl, between.le_rawEndPos, between, ⟨operations, moved⟩,
        ⟨front, _, joined, place.symm, viable⟩⟩
  · intro operations
    obtain ⟨rest, within, moved⟩ := Cursor.exists_performAll? (List.suffix_refl text.toList) operations
    obtain ⟨front, whole, place⟩ := exists_before within
    rw [← Cursor.start_eq] at moved
    exact ⟨_, moved, rfl, place ▸ isValid_of_append whole⟩

/-- A name gives its last `-` back before a `>`. The error stands there, behind a blank of three bytes,
and not at the `>`. -/
theorem parse?_error_viable_arrow :
    let text := "(\\exec(\u3000P12->P13)"
    parse? ⟨"P"⟩ text = .error ⟨text, 13, .closeParen⟩ ∧
      (∃ consumed rest, text = consumed ++ rest ∧ consumed.utf8ByteSize = 13 ∧
        Viable ⟨"P"⟩ consumed .closeParen) := by
  have refused : parse? ⟨"P"⟩ "(\\exec(\u3000P12->P13)" =
    .error ⟨"(\\exec(\u3000P12->P13)", 13, .closeParen⟩ := by cbv
  exact ⟨refused, ((parse?_error_viable _ _).1 _ refused).viable⟩

end Precondition

end ProcessFlow
