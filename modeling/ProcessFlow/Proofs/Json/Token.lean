import ProcessFlow.Json.Token
import ProcessFlow.Proofs.Text.Digits

/-! # Tokens of a text that goes on

A token ends where it would end if nothing followed, unless it is a number and what follows could be
part of it. So the tokens of a text come before those of any other text that is put behind it and does
not go on with a number.
-/

namespace ProcessFlow

/-- A text of characters only that may stand between tokens. -/
def JsonBlank (text : List Char) : Prop := ∀ character ∈ text, isJsonBlank character = true

instance (text : List Char) : Decidable (JsonBlank text) := List.decidableBAll _ text

namespace JsonToken

variable {text spelling after rest : List Char} {token : JsonToken} {tokens : List JsonToken}

/-- The text goes on with something that is no part of a number, or ends. -/
def Delimits (text : List Char) : Prop := ∀ character ∈ text.head?,
  character.isDigit = false ∧ character ≠ '.' ∧ character ≠ 'e' ∧ character ≠ 'E'

instance (text : List Char) : Decidable (Delimits text) := Option.decidableForallMem text.head?

theorem Delimits.noDigitNext (delimits : Delimits text) : NoDigitNext text :=
  fun character next => (delimits character next).1

/-- Only the first character counts. -/
theorem Delimits.cons {head : Char} (delimits : Delimits [head]) (rest : List Char) :
    Delimits (head :: rest) := delimits

/-- A text that does not begin with a character does not do so when it goes on. -/
theorem not_cons_append {first : Char} (solid : text ≠ [])
    (other : ∀ tail, text = first :: tail → False) (tail : List Char)
    (shape : text ++ rest = first :: tail) : False := by
  cases text with
  | nil => exact solid rfl
  | cons head others =>
    cases shape
    exact other others rfl

/-! ## Numbers -/

theorem takeWhole?_delimited (taken : takeWhole? text = some (spelling, after))
    (delimits : Delimits rest) : takeWhole? (text ++ rest) = some (spelling, after ++ rest) := by
  have solid : text ≠ [] := by
    rintro rfl
    cases taken
  unfold takeWhole? at taken
  split at taken
  case h_1 =>
    cases taken
    rfl
  case h_2 noZero =>
    rw [takeWhole?]
    · exact someDigits?_delimited taken delimits.noDigitNext
    · exact not_cons_append solid noZero

/-- A first character put in front of what is taken after it. -/
theorem map_cons_delimited {first : Char} {found wider : Option (List Char × List Char)}
    (inner : ∀ {digits last}, found = some (digits, last) → wider = some (digits, last ++ rest))
    (mapped : (found.map fun (digits, last) => (first :: digits, last)) = some (spelling, after)) :
    (wider.map fun (digits, last) => (first :: digits, last)) = some (spelling, after ++ rest) := by
  obtain ⟨⟨digits, last⟩, same, shape⟩ := Option.map_eq_some_iff.mp mapped
  cases shape
  rw [inner same]
  rfl

theorem takeFraction?_delimited (taken : takeFraction? text = some (spelling, after))
    (delimits : Delimits rest) : takeFraction? (text ++ rest) = some (spelling, after ++ rest) := by
  unfold takeFraction? at taken
  split at taken
  case h_1 => exact map_cons_delimited (someDigits?_delimited · delimits.noDigitNext) taken
  case h_2 noPoint =>
    cases taken
    rw [takeFraction?]
    rcases eq_or_ne text [] with rfl | solid
    · rintro _ rfl
      exact (delimits '.' rfl).2.1 rfl
    · exact not_cons_append solid noPoint

theorem takePower?_delimited (taken : takePower? text = some (spelling, after))
    (delimits : Delimits rest) : takePower? (text ++ rest) = some (spelling, after ++ rest) := by
  have solid : text ≠ [] := by
    rintro rfl
    cases taken
  unfold takePower? at taken
  split at taken
  case h_1 => exact map_cons_delimited (someDigits?_delimited · delimits.noDigitNext) taken
  case h_2 => exact map_cons_delimited (someDigits?_delimited · delimits.noDigitNext) taken
  case h_3 noPlus noMinus =>
    rw [takePower?]
    · exact someDigits?_delimited taken delimits.noDigitNext
    · exact not_cons_append solid noPlus
    · exact not_cons_append solid noMinus

theorem takeExponent?_delimited (taken : takeExponent? text = some (spelling, after))
    (delimits : Delimits rest) : takeExponent? (text ++ rest) = some (spelling, after ++ rest) := by
  unfold takeExponent? at taken
  split at taken
  case h_1 => exact map_cons_delimited (takePower?_delimited · delimits) taken
  case h_2 => exact map_cons_delimited (takePower?_delimited · delimits) taken
  case h_3 noSmall noLarge =>
    cases taken
    rcases eq_or_ne text [] with rfl | solid
    · rw [List.nil_append, takeExponent?]
      · rintro _ rfl
        exact (delimits 'e' rfl).2.2.1 rfl
      · rintro _ rfl
        exact (delimits 'E' rfl).2.2.2 rfl
    · rw [takeExponent?]
      · exact not_cons_append solid noSmall
      · exact not_cons_append solid noLarge

theorem takeUnsigned?_delimited (taken : takeUnsigned? text = some (spelling, after))
    (delimits : Delimits rest) : takeUnsigned? (text ++ rest) = some (spelling, after ++ rest) := by
  simp only [takeUnsigned?, bind, Option.bind_eq_some_iff, pure, Option.some.injEq, Prod.mk.injEq,
    Prod.exists] at taken ⊢
  obtain ⟨whole, first, wholeTaken, fraction, second, fractionTaken, exponent, third, exponentTaken,
    rfl, rfl⟩ := taken
  exact ⟨_, _, takeWhole?_delimited wholeTaken delimits, _, _,
    takeFraction?_delimited fractionTaken delimits, _, _,
    takeExponent?_delimited exponentTaken delimits, rfl, rfl⟩

theorem takeNumber?_delimited (taken : takeNumber? text = some (spelling, after))
    (delimits : Delimits rest) : takeNumber? (text ++ rest) = some (spelling, after ++ rest) := by
  have solid : text ≠ [] := by
    rintro rfl
    cases taken
  unfold takeNumber? at taken
  split at taken
  case h_1 => exact map_cons_delimited (takeUnsigned?_delimited · delimits) taken
  case h_2 noMinus =>
    rw [takeNumber?]
    · exact takeUnsigned?_delimited taken delimits
    · exact not_cons_append solid noMinus

/-! ## Words and strings -/

theorem takeWord?_eq_some_iff : takeWord? text = some (token, rest) ↔
    ∃ word value, (word, value) ∈ words ∧ text = word.toList ++ rest ∧ token = .scalar value := by
  constructor
  · intro taken
    obtain ⟨⟨word, value⟩, member, found⟩ := List.exists_of_findSome?_eq_some taken
    obtain ⟨_, dropped, same⟩ := Option.map_eq_some_iff.mp found
    cases same
    exact ⟨word, value, member, dropWord?_eq_some_iff.mp dropped, rfl⟩
  · rintro ⟨word, value, member, rfl, rfl⟩
    simp only [words, List.mem_cons, Prod.mk.injEq, List.not_mem_nil, or_false] at member
    rcases member with ⟨rfl, rfl⟩ | ⟨rfl, rfl⟩ | ⟨rfl, rfl⟩ <;> rfl

/-- No word begins with another letter. -/
theorem takeWord?_of_head {head : Char} (noLetter : head ∉ ['n', 't', 'f']) (tail : List Char) :
    takeWord? (head :: tail) = none := by
  refine Option.eq_none_iff_forall_ne_some.mpr fun (token, last) isWord => noLetter ?_
  obtain ⟨word, value, member, shape, _⟩ := takeWord?_eq_some_iff.mp isWord
  simp only [words, List.mem_cons, Prod.mk.injEq, List.not_mem_nil, or_false] at member
  rcases member with ⟨rfl, _⟩ | ⟨rfl, _⟩ | ⟨rfl, _⟩
  · rw [show head = 'n' from (List.cons.inj shape).1]
    decide
  · rw [show head = 't' from (List.cons.inj shape).1]
    decide
  · rw [show head = 'f' from (List.cons.inj shape).1]
    decide

/-- A number begins with no letter, so no word is there. -/
theorem takeWord?_of_takeNumber? (number : takeNumber? text = some (spelling, after))
    (rest : List Char) : takeWord? (text ++ rest) = none := by
  cases text with
  | nil => cases number
  | cons head tail =>
    refine takeWord?_of_head (fun letter => ?_) _
    simp only [List.mem_cons, List.not_mem_nil, or_false] at letter
    rcases letter with rfl | rfl | rfl <;> cases number

/-- A string ends at its closing quote, whatever follows. -/
theorem takeQuoted?_append {units : List QuotedUnit} (taken : takeQuoted? text = some (units, after))
    (rest : List Char) : takeQuoted? (text ++ rest) = some (units, after ++ rest) := by
  fun_induction takeQuoted? text generalizing units after with
  | case1 last =>
    cases taken
    rfl
  | case2 first second third fourth last ih =>
    simp only [bind, Option.bind_eq_some_iff, pure, Option.some.injEq, Prod.mk.injEq, Prod.exists] at taken
    obtain ⟨number, isHex, units, end', inner, rfl, rfl⟩ := taken
    simp [takeQuoted?, isHex, ih inner]
  | case3 letter last _ ih =>
    simp only [bind, Option.bind_eq_some_iff, pure, Option.some.injEq, Prod.mk.injEq, Prod.exists] at taken
    obtain ⟨character, isEscape, units, end', inner, rfl, rfl⟩ := taken
    rw [List.cons_append, List.cons_append, takeQuoted?]
    · simp [isEscape, ih inner]
    · rintro _ _ _ _ _ rfl
      cases isEscape
  | case4 => cases taken
  | case5 character last noQuote _ _ plain ih =>
    simp only [bind, Option.bind_eq_some_iff, pure, Option.some.injEq, Prod.mk.injEq, Prod.exists] at taken
    obtain ⟨units, end', inner, rfl, rfl⟩ := taken
    have noEscape : character ≠ '\\' := by
      rintro rfl
      exact plain rfl
    rw [List.cons_append, takeQuoted?, if_neg plain, ih inner]
    · rfl
    · exact noQuote
    · exact fun _ _ _ _ _ escape => absurd escape noEscape
    · exact fun _ _ escape => absurd escape noEscape
  | case6 => cases taken

/-! ## Tokens -/

theorem take?_delimited (taken : take? text = some (token, after)) (delimits : Delimits rest) :
    take? (text ++ rest) = some (token, after ++ rest) := by
  have solid : text ≠ [] := by
    rintro rfl
    cases taken
  unfold take? at taken
  split at taken
  case h_7 =>
    obtain ⟨⟨units, last⟩, inner, same⟩ := Option.map_eq_some_iff.mp taken
    cases same
    rw [List.cons_append, take?, takeQuoted?_append inner]
    rfl
  case h_8 noOpenObject noCloseObject noOpenArray noCloseArray noColon noComma noQuote =>
    rw [take?]
    · rcases Option.or_eq_some_iff.mp taken with isWord | ⟨_, isNumber⟩
      · obtain ⟨word, value, member, rfl, rfl⟩ := takeWord?_eq_some_iff.mp isWord
        rw [takeWord?_eq_some_iff.mpr ⟨word, value, member, List.append_assoc .., rfl⟩]
        rfl
      · obtain ⟨⟨spelling, last⟩, number, same⟩ := Option.map_eq_some_iff.mp isNumber
        cases same
        rw [takeWord?_of_takeNumber? number, takeNumber?_delimited number delimits]
        rfl
    · exact not_cons_append solid noOpenObject
    · exact not_cons_append solid noCloseObject
    · exact not_cons_append solid noOpenArray
    · exact not_cons_append solid noCloseArray
    · exact not_cons_append solid noColon
    · exact not_cons_append solid noComma
    · exact not_cons_append solid noQuote
  all_goals
    cases taken
    rfl

/-- No token begins with a blank. -/
theorem take?_of_blank {head : Char} (blank : isBlank head = true) (tail : List Char) :
    take? (head :: tail) = none := by
  have apart (other : Char) (solid : isBlank other = false) (rest : List Char)
      (shape : head :: tail = other :: rest) : False := by
    rw [(List.cons.inj shape).1, solid] at blank
    cases blank
  have noDigit : head.isDigit = false := Bool.eq_false_iff.mpr fun isDigit =>
    apart head (isBlank_of_isDigit isDigit) tail rfl
  have noWord : takeWord? (head :: tail) = none := by
    refine takeWord?_of_head (fun letter => ?_) tail
    simp only [List.mem_cons, List.not_mem_nil, or_false] at letter
    rcases letter with rfl | rfl | rfl <;> exact absurd blank (by decide)
  have noWhole : takeWhole? (head :: tail) = none := by
    rw [takeWhole?, someDigits?, spanDigits, List.takeWhile_cons_of_neg (by rw [noDigit]; decide)]
    · rfl
    · exact apart '0' (by decide)
  have noNumber : takeNumber? (head :: tail) = none := by
    rw [takeNumber?, takeUnsigned?, noWhole]
    · rfl
    · exact apart '-' (by decide)
  rw [take?, noWord, noNumber]
  · rfl
  · exact apart '\x7b' (by decide)
  · exact apart '\x7d' (by decide)
  · exact apart '[' (by decide)
  · exact apart ']' (by decide)
  · exact apart ':' (by decide)
  · exact apart ',' (by decide)
  · exact apart '"' (by decide)

/-- A text is cut into its first token, if there is one, and the tokens of what follows. -/
theorem ofText?_eq (text : List Char) : ofText? text = match text.dropWhile isJsonBlank with
    | [] => some []
    | head :: tail => (take? (head :: tail)).bind fun (token, rest) => (ofText? rest).map (token :: ·) := by
  rw [ofText?.eq_def]
  split
  next skipped => rw [skipped]
  next head tail skipped =>
    rw [skipped]
    split
    next taken => simp only [taken, Option.bind_none]
    next token rest taken => simp only [taken, Option.bind_some]

theorem ofText?_of_blank (blank : JsonBlank text) : ofText? text = some [] := by
  rw [ofText?_eq, List.dropWhile_eq_nil_iff.mpr blank]

theorem ofText?_blank_append (blank : JsonBlank text) (rest : List Char) :
    ofText? (text ++ rest) = ofText? rest := by
  rw [ofText?_eq, List.dropWhile_append_of_pos blank, ← ofText?_eq]

theorem ofText?_cons {head : Char} (solid : isJsonBlank head = false)
    (taken : take? (head :: text) = some (token, rest)) :
    ofText? (head :: text) = (ofText? rest).map (token :: ·) := by
  rw [ofText?_eq, List.dropWhile_cons_of_neg (by rw [solid]; decide)]
  simp only [taken, Option.bind_some]

/-- The tokens of a text that goes on are its own and those of what follows. -/
theorem ofText?_append (read : ofText? text = some tokens) (delimits : Delimits rest) :
    ofText? (text ++ rest) = (ofText? rest).map (tokens ++ ·) := by
  fun_induction ofText? text generalizing tokens with
  | case1 text skipped =>
    cases read
    rw [ofText?_blank_append (List.dropWhile_eq_nil_iff.mp skipped)]
    simp only [List.nil_append, Option.map_id']
  | case2 => cases read
  | case3 text head tail skipped token after taken ih =>
    obtain ⟨others, inner, rfl⟩ := Option.map_eq_some_iff.mp read
    have onward : (text ++ rest).dropWhile isJsonBlank = head :: tail ++ rest := by
      rw [List.dropWhile_append, skipped]
      rfl
    rw [ofText?_eq, onward, List.cons_append]
    simp only [← List.cons_append, take?_delimited taken delimits, Option.bind_some, ih inner,
      Option.map_map]
    rfl

end JsonToken

end ProcessFlow
