import ProcessFlow.Precondition.Parser

/-! # Scanning a text by bytes

A cursor stands in a text after a number of bytes and reads on from there by cutting the text. A cut
within a character, or beyond the end, has no result. The operations of a scanner move a cursor, and one
of them moves it back by a byte: a name gives back its last `-` when a `>` follows. From the start of a
text no operation ever asks for a cut without result, and each reads what the functions on characters
read: `takeWhile?_before` to `name?_before` say so.
-/

namespace ProcessFlow

/-- Cut a text after a number of bytes. -/
def cutBytes? : List Char → Nat → Option (List Char × List Char)
  | text, 0 => some ([], text)
  | [], _ + 1 => none
  | head :: rest, count + 1 =>
    if head.utf8Size ≤ count + 1 then
      (cutBytes? rest (count + 1 - head.utf8Size)).map fun cut => (head :: cut.1, cut.2)
    else none

@[simp] theorem utf8Length_append (left right : List Char) :
    utf8Length (left ++ right) = utf8Length left + utf8Length right := by
  induction left with
  | nil => simp [utf8Length]
  | cons head rest ih => simp only [List.cons_append, utf8Length, ih, Nat.add_assoc]

/-- A text is cut between two of its characters, or at an end, and nowhere else. -/
theorem cutBytes?_eq_some_iff {text before after : List Char} {count : Nat} :
    cutBytes? text count = some (before, after) ↔
      text = before ++ after ∧ utf8Length before = count := by
  fun_induction cutBytes? text count generalizing before after with
  | case1 text =>
    constructor
    · intro cut
      cases cut
      exact ⟨rfl, rfl⟩
    · rintro ⟨rfl, none⟩
      cases before with
      | nil => rfl
      | cons head rest =>
        have solid := head.utf8Size_pos
        simp only [utf8Length] at none
        omega
  | case2 count =>
    refine ⟨nofun, ?_⟩
    rintro ⟨whole, size⟩
    rw [(List.append_eq_nil_iff.mp whole.symm).1] at size
    cases size
  | case3 head rest count fits ih =>
    simp only [Option.map_eq_some_iff, Prod.exists, Prod.mk.injEq, ih]
    constructor
    · rintro ⟨inner, _, ⟨rfl, size⟩, rfl, rfl⟩
      refine ⟨rfl, ?_⟩
      simp only [utf8Length]
      omega
    · rintro ⟨whole, size⟩
      cases before with
      | nil => cases size
      | cons first inner =>
        obtain ⟨rfl, rfl⟩ := List.cons.inj whole
        simp only [utf8Length] at size
        exact ⟨inner, after, ⟨rfl, by omega⟩, rfl, rfl⟩
  | case4 head rest count tooFew =>
    refine ⟨nofun, ?_⟩
    rintro ⟨whole, size⟩
    cases before with
    | nil => cases size
    | cons first inner =>
      obtain ⟨rfl, _⟩ := List.cons.inj whole
      simp only [utf8Length] at size
      omega

/-- A place in a text, by the number of bytes before it. -/
structure Cursor where
  text : List Char
  offset : Nat
deriving DecidableEq

namespace Cursor

def start (text : List Char) : Cursor := ⟨text, 0⟩

/-- The place in a text from which this is left. -/
def before (text rest : List Char) : Cursor := ⟨text, utf8Length text - utf8Length rest⟩

def rest? (cursor : Cursor) : Option (List Char) :=
  (cutBytes? cursor.text cursor.offset).map Prod.snd

def advance (cursor : Cursor) (count : Nat) : Cursor :=
  { cursor with offset := cursor.offset + count }

def retreat (cursor : Cursor) (count : Nat) : Cursor :=
  { cursor with offset := cursor.offset - count }

/-- Move past the characters of a kind, and return them. -/
def takeWhile? (kind : Char → Bool) (cursor : Cursor) : Option (List Char × Cursor) := do
  let rest ← cursor.rest?
  let count := utf8Length (rest.takeWhile kind)
  let cut ← cutBytes? rest count
  return (cut.1, cursor.advance count)

def skipBlank? (cursor : Cursor) : Option Cursor := (cursor.takeWhile? isBlank).map Prod.snd

/-- Move past a word, if it comes next, and return whether it does. -/
def eat? (word : List Char) (cursor : Cursor) : Option (Bool × Cursor) := do
  let rest ← cursor.rest?
  return if word <+: rest then (true, cursor.advance (utf8Length word)) else (false, cursor)

/-- Move past a word and the blanks after it, if it comes next, and return whether it does. -/
def eatToken? (word : List Char) (cursor : Cursor) : Option (Bool × Cursor) := do
  let (eaten, after) ← cursor.eat? word
  if eaten then
    let after ← after.skipBlank?
    return (true, after)
  else return (false, after)

/-- Give back the last `-` of a name that stands before the cursor, if a `>` follows. -/
def giveBack? (name : List Char) (cursor : Cursor) : Option (List Char × Cursor) := do
  let rest ← cursor.rest?
  if name.getLast? = some '-' ∧ rest.head? = some '>' then
    let cut ← cutBytes? name (utf8Length name - 1)
    return (cut.1, cursor.retreat 1)
  else return (name, cursor)

/-- Move past a name and the blanks after it, if a name comes next, and return it. -/
def name? (cursor : Cursor) : Option (Option (List Char) × Cursor) := do
  let (taken, after) ← cursor.takeWhile? isIdChar
  let (name, after) ← after.giveBack? taken
  if name = [] then return (none, cursor)
  else
    let after ← after.skipBlank?
    return (some name, after)

/-! ## What the operations read -/

variable {text front rest : List Char}

theorem start_eq (text : List Char) : start text = before text text := by
  rw [start, before, Nat.sub_self]

theorem utf8Length_le_of_suffix (within : rest <:+ text) : utf8Length rest ≤ utf8Length text := by
  obtain ⟨front, rfl⟩ := within
  rw [utf8Length_append]
  omega

theorem rest?_before (within : rest <:+ text) : (before text rest).rest? = some rest := by
  obtain ⟨front, rfl⟩ := within
  have cut : cutBytes? (front ++ rest) (utf8Length (front ++ rest) - utf8Length rest) =
      some (front, rest) := cutBytes?_eq_some_iff.mpr ⟨rfl, by rw [utf8Length_append]; omega⟩
  rw [rest?, before, cut, Option.map_some]

theorem advance_before (within : front ++ rest <:+ text) :
    (before text (front ++ rest)).advance (utf8Length front) = before text rest := by
  have shorter := utf8Length_le_of_suffix within
  rw [utf8Length_append] at shorter
  simp only [advance, before, utf8Length_append, Cursor.mk.injEq, true_and]
  omega

theorem takeWhile?_before (within : rest <:+ text) (kind : Char → Bool) :
    (before text rest).takeWhile? kind =
      some (rest.takeWhile kind, before text (rest.dropWhile kind)) := by
  have whole : rest.takeWhile kind ++ rest.dropWhile kind = rest := List.takeWhile_append_dropWhile
  have cut : cutBytes? rest (utf8Length (rest.takeWhile kind)) =
      some (rest.takeWhile kind, rest.dropWhile kind) := cutBytes?_eq_some_iff.mpr ⟨whole.symm, rfl⟩
  have moved := advance_before (whole.symm ▸ within)
  rw [whole] at moved
  simp only [takeWhile?, rest?_before within, Option.bind_eq_bind, Option.bind_some, cut, moved]
  rfl

theorem skipBlank?_before (within : rest <:+ text) :
    (before text rest).skipBlank? = some (before text (skipBlank rest)) := by
  rw [skipBlank?, takeWhile?_before within]
  rfl

theorem eat?_before (within : rest <:+ text) (word : List Char) :
    (before text rest).eat? word = match dropWord? word rest with
      | some later => some (true, before text later)
      | none => some (false, before text rest) := by
  simp only [eat?, rest?_before within, Option.bind_eq_bind, Option.bind_some]
  cases found : dropWord? word rest with
  | some later =>
    obtain rfl := dropWord?_eq_some_iff.mp found
    rw [if_pos (List.prefix_append word later), advance_before within]
    rfl
  | none =>
    rw [if_neg]
    · rfl
    · rintro ⟨later, whole⟩
      rw [dropWord?_eq_some_iff.mpr whole.symm] at found
      cases found

theorem eatToken?_before (within : rest <:+ text) (word : List Char) :
    (before text rest).eatToken? word = match dropWord? word rest with
      | some later => some (true, before text (skipBlank later))
      | none => some (false, before text rest) := by
  rw [eatToken?, eat?_before within]
  cases found : dropWord? word rest with
  | some later =>
    obtain rfl := dropWord?_eq_some_iff.mp found
    have inside : later <:+ text := (List.suffix_append word later).trans within
    simp only [Option.bind_eq_bind, Option.bind_some, if_true, skipBlank?_before inside]
    rfl
  | none => rfl

/-- The `-` that is given back is one byte before the cursor. -/
theorem giveBack?_before (within : front ++ rest <:+ text) :
    (before text rest).giveBack? front =
      if front.getLast? = some '-' ∧ rest.head? = some '>' then
        some (front.dropLast, before text ('-' :: rest))
      else some (front, before text rest) := by
  have inside : rest <:+ text := (List.suffix_append front rest).trans within
  simp only [giveBack?, rest?_before inside, Option.bind_eq_bind, Option.bind_some]
  split
  · rename_i arrow
    obtain ⟨kept, rfl⟩ := List.getLast?_eq_some_iff.mp arrow.1
    have dash : utf8Length ['-'] = 1 := rfl
    have cut : cutBytes? (kept ++ ['-']) (utf8Length (kept ++ ['-']) - 1) = some (kept, ['-']) :=
      cutBytes?_eq_some_iff.mpr ⟨rfl, by rw [utf8Length_append, dash]; omega⟩
    have back : (before text rest).retreat 1 = before text ('-' :: rest) := by
      rw [retreat, before, before, ← List.singleton_append, utf8Length_append, dash, Nat.sub_sub,
        Nat.add_comm]
    rw [cut, Option.bind_some, back, List.dropLast_concat]
    rfl
  · rfl

/-- After the characters of a name, what is given back leaves the longest name. -/
theorem giveBack?_takeWhile (within : rest <:+ text) :
    (before text (rest.dropWhile isIdChar)).giveBack? (rest.takeWhile isIdChar) =
      some (Token.nameFront rest, before text (rest.drop (Token.nameFront rest).length)) := by
  have whole : rest.takeWhile isIdChar ++ rest.dropWhile isIdChar = rest :=
    List.takeWhile_append_dropWhile
  have left {name later : List Char} (same : name ++ later = rest) : rest.drop name.length = later := by
    rw [← same, List.drop_left]
  rw [giveBack?_before (whole.symm ▸ within), Token.nameFront]
  split
  · rename_i arrow
    obtain ⟨kept, ends⟩ := List.getLast?_eq_some_iff.mp arrow.1
    rw [ends, List.append_assoc] at whole
    rw [ends, List.dropLast_concat, left whole]
    rfl
  · rw [left whole]

/-- A name is read as far as it goes without the beginning of an arrow. -/
theorem name?_before (within : rest <:+ text) : (before text rest).name? =
    if Token.nameFront rest = [] then some (none, before text rest)
    else some (some (Token.nameFront rest),
      before text (skipBlank (rest.drop (Token.nameFront rest).length))) := by
  have inside : rest.drop (Token.nameFront rest).length <:+ text :=
    (List.drop_suffix _ rest).trans within
  simp only [name?, takeWhile?_before within, giveBack?_takeWhile within, Option.bind_eq_bind,
    Option.bind_some, skipBlank?_before inside]
  rfl

end Cursor

/-! ## Runs of a scanner -/

/-- An operation of a scanner. -/
inductive Scan where
  | takeWhile (kind : Char → Bool)
  | eat (word : List Char)
  | token (word : List Char)
  | name

namespace Cursor

/-- Where an operation moves a cursor to. -/
def perform? (cursor : Cursor) : Scan → Option Cursor
  | .takeWhile kind => (cursor.takeWhile? kind).map Prod.snd
  | .eat word => (cursor.eat? word).map Prod.snd
  | .token word => (cursor.eatToken? word).map Prod.snd
  | .name => cursor.name?.map Prod.snd

/-- Where operations move a cursor to, one after the other. -/
def performAll? (cursor : Cursor) (operations : List Scan) : Option Cursor :=
  operations.foldlM perform? cursor

variable {text rest : List Char}

/-- An operation moves a cursor from one place between characters to another. -/
theorem exists_perform? (within : rest <:+ text) (operation : Scan) :
    ∃ later, later <:+ rest ∧ (before text rest).perform? operation = some (before text later) := by
  cases operation with
  | takeWhile kind =>
    refine ⟨_, List.dropWhile_suffix kind, ?_⟩
    rw [perform?, takeWhile?_before within, Option.map_some]
  | eat word =>
    rw [perform?, eat?_before within]
    cases found : dropWord? word rest with
    | some later =>
      obtain rfl := dropWord?_eq_some_iff.mp found
      exact ⟨later, List.suffix_append word later, rfl⟩
    | none => exact ⟨rest, List.suffix_refl rest, rfl⟩
  | token word =>
    rw [perform?, eatToken?_before within]
    cases found : dropWord? word rest with
    | some later =>
      obtain rfl := dropWord?_eq_some_iff.mp found
      exact ⟨_, (skipBlank_suffix later).trans (List.suffix_append word later), rfl⟩
    | none => exact ⟨rest, List.suffix_refl rest, rfl⟩
  | name =>
    rw [perform?, name?_before within]
    split
    · exact ⟨rest, List.suffix_refl rest, rfl⟩
    · exact ⟨_, (skipBlank_suffix _).trans (List.drop_suffix _ rest), rfl⟩

/-- No operations ask for a cut within a character or beyond the end. -/
theorem exists_performAll? (within : rest <:+ text) (operations : List Scan) :
    ∃ later, later <:+ text ∧
      (before text rest).performAll? operations = some (before text later) := by
  induction operations generalizing rest with
  | nil => exact ⟨rest, within, rfl⟩
  | cons operation others ih =>
    obtain ⟨middle, suffix, moved⟩ := exists_perform? within operation
    obtain ⟨later, inside, run⟩ := ih (suffix.trans within)
    refine ⟨later, inside, ?_⟩
    rw [performAll?, List.foldlM_cons, moved]
    exact run

/-- What is cut off as a token, an operation of the scanner moves past. -/
theorem exists_perform?_of_take? (within : rest <:+ text) {token : Token} {later : List Char}
    (taken : Token.take? rest = some (token, later)) :
    ∃ operation, (before text rest).perform? operation = some (before text (skipBlank later)) := by
  rcases Option.or_eq_some_iff.mp taken with fixedTaken | ⟨_, nameTaken⟩
  · obtain ⟨_, rfl⟩ := Token.takeFixed?_eq_some fixedTaken
    refine ⟨.token token.spelling, ?_⟩
    rw [perform?, eatToken?_before within, dropWord?_append]
    rfl
  · simp only [Token.takeName?] at nameTaken
    split at nameTaken
    · cases nameTaken
    · rename_i solid
      cases nameTaken
      refine ⟨.name, ?_⟩
      rw [perform?, name?_before within, if_neg solid]
      rfl

end Cursor

end ProcessFlow
