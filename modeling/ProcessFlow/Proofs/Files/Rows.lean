import Mathlib.Data.List.Forall2
import ProcessFlow.Document.Table
import ProcessFlow.Files.Rows
import ProcessFlow.Proofs.Json.Reading
import ProcessFlow.Proofs.Text.Blank

/-! # Tables written line by line

A table with one row in each line has the same rows as the document that lists them, whatever blank
lines stand between them, however the lines end and whether the last one ends at all. A table with
something else in a line is refused for the first such line, by its number among all lines.
-/

namespace ProcessFlow

/-! ## Lines -/

inductive LineEnd where
  | feed
  /-- A carriage return before the line feed. -/
  | returnFeed

/-- What stands before the line feed. -/
def LineEnd.front : LineEnd → FileContent
  | .feed => []
  | .returnFeed => [some '\r']

/-- A line with its end. A carriage return before the line feed is part of the end. -/
structure FileLine where
  content : FileContent
  ending : LineEnd
  unbroken : some '\n' ∉ content
  unreturned : ending = .feed → content.getLast? ≠ some (some '\r')

/-- The lines of a file, with what stands behind the last end. -/
structure LineLayout where
  ended : List FileLine
  last : FileContent
  unbroken : some '\n' ∉ last

def FileLine.chars (line : FileLine) : FileContent :=
  line.content ++ line.ending.front ++ [some '\n']

/-- The file with these lines. -/
def LineLayout.content (layout : LineLayout) : FileContent :=
  layout.ended.flatMap FileLine.chars ++ layout.last

/-- The lines without their ends. What stands behind the last end is a line if there is something. -/
def LineLayout.lines (layout : LineLayout) : List FileContent :=
  layout.ended.map FileLine.content ++ [layout.last].filter (· ≠ [])

theorem FileLine.feed_not_mem (line : FileLine) : some '\n' ∉ line.content ++ line.ending.front := by
  rw [List.mem_append, not_or]
  refine ⟨line.unbroken, ?_⟩
  cases line.ending <;> decide

theorem FileLine.dropReturn_eq (line : FileLine) :
    dropReturn (line.content ++ line.ending.front) = line.content := by
  obtain ⟨content, ending, _, unreturned⟩ := line
  cases ending with
  | feed => rw [LineEnd.front, List.append_nil, dropReturn, if_neg (unreturned rfl)]
  | returnFeed => rw [LineEnd.front, dropReturn, if_pos List.getLast?_concat, List.dropLast_concat]

theorem linesOfPieces_cons {piece : FileContent} {rest : List FileContent} (more : rest ≠ []) :
    linesOfPieces (piece :: rest) = dropReturn piece :: linesOfPieces rest := by
  cases rest with
  | nil => contradiction
  | cons => rfl

/-- A file has the lines that it is written from. -/
theorem LineLayout.contentLines_content (layout : LineLayout) :
    contentLines layout.content = layout.lines := by
  obtain ⟨ended, last, unbroken⟩ := layout
  unfold contentLines content lines
  dsimp only
  induction ended with
  | nil =>
    rw [List.flatMap_nil, List.nil_append, pieces_of_not_mem unbroken]
    cases last <;> rfl
  | cons line rest ih =>
    rw [List.flatMap_cons, FileLine.chars, List.append_assoc, List.append_assoc, List.singleton_append,
      pieces_append_cons line.feed_not_mem, linesOfPieces_cons (pieces_ne_nil _ _), ih,
      line.dropReturn_eq]
    rfl

/-- A line may have anything before its line feed. -/
theorem FileLine.exists_chars {piece : FileContent} (unbroken : some '\n' ∉ piece) :
    ∃ line : FileLine, line.chars = piece ++ [some '\n'] := by
  by_cases returned : piece.getLast? = some (some '\r')
  · have whole := List.dropLast_append_getLast? _ returned
    refine ⟨⟨piece.dropLast, .returnFeed, fun member => ?_, nofun⟩, ?_⟩
    · exact unbroken (List.dropLast_subset piece member)
    · rw [chars, LineEnd.front, whole]
  · exact ⟨⟨piece, .feed, unbroken, fun _ => returned⟩, by rw [chars, LineEnd.front, List.append_nil]⟩

/-- Every file is written from lines. -/
theorem LineLayout.exists_content (content : FileContent) :
    ∃ layout : LineLayout, layout.content = content := by
  have solid : ∀ piece ∈ pieces (some '\n') content, some '\n' ∉ piece :=
    fun _ => separator_not_mem_piece
  rw [← intercalate_pieces (some '\n') content]
  generalize pieces (some '\n') content = list at solid
  induction list with
  | nil => exact ⟨⟨[], [], nofun⟩, rfl⟩
  | cons piece rest ih =>
    obtain ⟨here, later⟩ := List.forall_mem_cons.mp solid
    cases rest with
    | nil => exact ⟨⟨[], piece, here⟩, List.intercalate_singleton.symm⟩
    | cons next more =>
      obtain ⟨layout, written⟩ := ih later
      obtain ⟨line, chars⟩ := FileLine.exists_chars here
      refine ⟨⟨line :: layout.ended, layout.last, layout.unbroken⟩, ?_⟩
      rw [List.intercalate_cons_cons, ← written, ← chars]
      simp only [LineLayout.content, List.flatMap_cons, List.append_assoc]

/-! ## Rows -/

variable {α : Type} {decode? : Json → Option α} {path : String} {number : Nat} {text : List Char}
  {row : α} {rows : List α} {line : FileContent} {lines : List FileContent} {failure : Failure}

def SpellsRow (decode? : Json → Option α) (text : List Char) (row : α) : Prop :=
  (Json.ofChars? text).bind decode? = some row

/-- Lines that hold rows in their order, one in each line that is not blank. -/
inductive HoldsRows (decode? : Json → Option α) : List FileContent → List α → Prop where
  | nil : HoldsRows decode? [] []
  | blank {text : List Char} {lines : List FileContent} {rows : List α} (blank : Blank text)
    (rest : HoldsRows decode? lines rows) : HoldsRows decode? (text.map some :: lines) rows
  | row {text : List Char} {row : α} {lines : List FileContent} {rows : List α}
    (spelled : SpellsRow decode? text row) (rest : HoldsRows decode? lines rows) :
    HoldsRows decode? (text.map some :: lines) (row :: rows)

/-- A line that is blank or holds a row. -/
def SoundLine (decode? : Json → Option α) (line : FileContent) : Prop :=
  ∃ text, line = text.map some ∧ (Blank text ∨ ∃ row, SpellsRow decode? text row)

/-- What is wrong with a line, by its number. -/
inductive RefusedLine (decode? : Json → Option α) (path : String) (number : Nat) :
    FileContent → Failure → Prop where
  /-- The line has unreadable bytes. -/
  | unreadable {line : FileContent} (unreadable : none ∈ line) :
    RefusedLine decode? path number line
      (.during ("Failed to read line " ++ toString number) (.file .invalidText))
  /-- The line is not blank and no row. -/
  | malformed {text : List Char} (solid : ¬Blank text) (noRow : ∀ row, ¬SpellsRow decode? text row) :
    RefusedLine decode? path number (text.map some)
      (.during ("Failed to parse row at " ++ path ++ ":" ++ toString number) .malformedJson)

theorem readableText?_eq_none_iff : readableText? line = none ↔ none ∈ line := by
  induction line with
  | nil => exact ⟨nofun, nofun⟩
  | cons place rest ih =>
    cases place with
    | none => simp [readableText?_cons]
    | some character => simp [readableText?_cons, ih]

theorem readLineRows_of_blank (blank : Blank text) :
    readLineRows decode? path number (text.map some :: lines) =
      readLineRows decode? path (number + 1) lines := by
  rw [readLineRows, readableText?_map_some]
  dsimp only
  rw [if_pos (List.all_eq_true.mpr blank)]

theorem not_blank_of_spellsRow (spelled : SpellsRow decode? text row) : ¬Blank text := by
  intro blank
  rw [SpellsRow, Json.ofChars?_of_blank blank] at spelled
  cases spelled

theorem readLineRows_of_spellsRow (spelled : SpellsRow decode? text row) :
    readLineRows decode? path number (text.map some :: lines) =
      (readLineRows decode? path (number + 1) lines).map (row :: ·) := by
  rw [readLineRows, readableText?_map_some]
  dsimp only
  rw [if_neg (mt List.all_eq_true.mp (not_blank_of_spellsRow spelled)), spelled]

theorem readLineRows_of_refusedLine (refused : RefusedLine decode? path number line failure) :
    readLineRows decode? path number (line :: lines) = .error failure := by
  cases refused with
  | unreadable unreadable => rw [readLineRows, readableText?_eq_none_iff.mpr unreadable]
  | malformed solid noRow =>
    rw [readLineRows, readableText?_map_some]
    dsimp only
    rw [if_neg (mt List.all_eq_true.mp solid), Option.eq_none_iff_forall_ne_some.mpr noRow]

/-- A sound line is none that a table is refused for. -/
theorem readLineRows_error_of_soundLine (sound : SoundLine decode? line) :
    readLineRows decode? path number (line :: lines) = .error failure ↔
      readLineRows decode? path (number + 1) lines = .error failure := by
  obtain ⟨text, rfl, blank | ⟨row, spelled⟩⟩ := sound
  · rw [readLineRows_of_blank blank]
  · rw [readLineRows_of_spellsRow spelled]
    cases readLineRows decode? path (number + 1) lines <;> simp [Except.map]

theorem soundLine_or_refusedLine (decode? : Json → Option α) (path : String) (number : Nat)
    (line : FileContent) :
    SoundLine decode? line ∨ ∃ failure, RefusedLine decode? path number line failure := by
  cases readable : readableText? line with
  | none => exact .inr ⟨_, .unreadable (readableText?_eq_none_iff.mp readable)⟩
  | some text =>
    obtain rfl := readableText?_eq_some_iff.mp readable
    by_cases sound : Blank text ∨ ∃ row, SpellsRow decode? text row
    · exact .inl ⟨text, rfl, sound⟩
    · obtain ⟨solid, noRow⟩ := not_or.mp sound
      exact .inr ⟨_, .malformed solid (not_exists.mp noRow)⟩

/-- Lines are read as the rows that they hold. -/
theorem readLineRows_eq_ok_iff :
    readLineRows decode? path number lines = .ok rows ↔ HoldsRows decode? lines rows := by
  constructor
  · intro read
    induction lines generalizing number rows with
    | nil =>
      cases read
      exact .nil
    | cons line lines ih =>
      rcases soundLine_or_refusedLine decode? path number line with
        ⟨text, rfl, blank | ⟨row, spelled⟩⟩ | ⟨failure, refused⟩
      · rw [readLineRows_of_blank blank] at read
        exact .blank blank (ih read)
      · rw [readLineRows_of_spellsRow spelled] at read
        cases later : readLineRows decode? path (number + 1) lines with
        | error => simp [later, Except.map] at read
        | ok others =>
          rw [later] at read
          cases read
          exact .row spelled (ih later)
      · rw [readLineRows_of_refusedLine refused] at read
        cases read
  · intro holds
    induction holds generalizing number with
    | nil => rfl
    | blank blank _ ih => rw [readLineRows_of_blank blank, ih]
    | row spelled _ ih =>
      rw [readLineRows_of_spellsRow spelled, ih]
      rfl

/-- Lines are refused for the first line that is not sound, by its number. -/
theorem readLineRows_eq_error_iff : readLineRows decode? path number lines = .error failure ↔
    ∃ before line after, lines = before ++ line :: after ∧
      (∀ earlier ∈ before, SoundLine decode? earlier) ∧
      RefusedLine decode? path (number + before.length) line failure := by
  have shift (first : FileContent) (before : List FileContent) (number : Nat) :
      number + (first :: before).length = number + 1 + before.length := by
    rw [List.length_cons]
    omega
  constructor
  · intro failed
    induction lines generalizing number with
    | nil => cases failed
    | cons first lines ih =>
      rcases soundLine_or_refusedLine decode? path number first with sound | ⟨other, refused⟩
      · obtain ⟨before, line, after, rfl, allSound, refused⟩ :=
          ih ((readLineRows_error_of_soundLine sound).mp failed)
        rw [← shift first] at refused
        exact ⟨first :: before, line, after, rfl, List.forall_mem_cons.mpr ⟨sound, allSound⟩, refused⟩
      · rw [readLineRows_of_refusedLine refused] at failed
        cases failed
        exact ⟨[], first, lines, rfl, nofun, refused⟩
  · rintro ⟨before, line, after, rfl, allSound, refused⟩
    induction before generalizing number with
    | nil => exact readLineRows_of_refusedLine refused
    | cons first before ih =>
      obtain ⟨sound, laterSound⟩ := List.forall_mem_cons.mp allSound
      rw [shift] at refused
      exact (readLineRows_error_of_soundLine sound).mpr (ih laterSound refused)

theorem HoldsRows.soundLine (holds : HoldsRows decode? lines rows) :
    ∀ line ∈ lines, SoundLine decode? line := by
  induction holds with
  | nil => exact nofun
  | blank blank _ ih => exact List.forall_mem_cons.mpr ⟨⟨_, rfl, .inl blank⟩, ih⟩
  | row spelled _ ih => exact List.forall_mem_cons.mpr ⟨⟨_, rfl, .inr ⟨_, spelled⟩⟩, ih⟩

theorem RefusedLine.not_soundLine (refused : RefusedLine decode? path number line failure) :
    ¬SoundLine decode? line := by
  rintro ⟨text, rfl, sound⟩
  generalize shape : text.map some = line at refused
  cases refused with
  | unreadable unreadable =>
    subst shape
    obtain ⟨_, _, same⟩ := List.mem_map.mp unreadable
    cases same
  | malformed solid noRow =>
    obtain rfl := List.map_injective_iff.mpr (fun _ _ => Option.some.inj) shape
    exact sound.elim solid fun ⟨row, spelled⟩ => noRow row spelled

theorem exists_readLineRows_error_iff :
    (∃ failure, readLineRows decode? path number lines = .error failure) ↔
      ∃ line ∈ lines, ¬SoundLine decode? line := by
  constructor
  · rintro ⟨failure, failed⟩
    obtain ⟨before, line, after, rfl, _, refused⟩ := readLineRows_eq_error_iff.mp failed
    exact ⟨line, by simp, refused.not_soundLine⟩
  · rintro ⟨line, member, unsound⟩
    cases read : readLineRows decode? path number lines with
    | error failure => exact ⟨failure, rfl⟩
    | ok rows => exact absurd ((readLineRows_eq_ok_iff.mp read).soundLine line member) unsound

/-! ## Rows in an array -/

theorem exists_values_of_spellsRow {texts : List (List Char)}
    (spelled : List.Forall₂ (SpellsRow decode?) texts rows) :
    ∃ values, List.Forall₂ (fun text value => Json.ofChars? text = some value) texts values ∧
      values.mapM decode? = some rows := by
  induction spelled with
  | nil => exact ⟨[], .nil, rfl⟩
  | cons first _ ih =>
    obtain ⟨value, read, decoded⟩ := Option.bind_eq_some_iff.mp first
    obtain ⟨values, others, listed⟩ := ih
    exact ⟨value :: values, .cons read others, by rw [List.mapM_cons, decoded, listed]; rfl⟩

/-- An array of rows is read as the rows. -/
theorem readDocument_array (array : ArrayText) (spelled : List.Forall₂ (SpellsRow decode?) array.items rows) :
    readDocument (Json.list? decode?) path (.ok (.file (array.chars.map some))) = .ok rows := by
  obtain ⟨values, read, listed⟩ := exists_values_of_spellsRow spelled
  rw [readDocument, FileEntry.text?, readableText?_map_some]
  dsimp only
  rw [array.ofChars?_chars read, Option.bind_some, Json.list?, listed]

/-- The rows of a file with one row in each line that is not blank are those of the file that holds them
as an array, however each file is written. A file with a line that is neither blank nor a row is refused,
and every refusal is for the first such line, by its number among all lines. Every file is one of lines. -/
theorem readTable_exact (decode? : Json → Option α) {table document : String}
    (isTable : isLineTable table = true) (isDocument : isLineTable document = false) :
    (∀ content, ∃ layout : LineLayout, layout.content = content) ∧
    (∀ (layout : LineLayout) (rows : List α),
      readTable decode? table (.ok (.file layout.content)) = .ok rows ↔
        HoldsRows decode? layout.lines rows) ∧
    (∀ (array : ArrayText) (rows : List α), List.Forall₂ (SpellsRow decode?) array.items rows →
      readTable decode? document (.ok (.file (array.chars.map some))) = .ok rows) ∧
    (∀ layout : LineLayout,
      (∃ failure, readTable decode? table (.ok (.file layout.content)) = .error failure) ↔
        ∃ line ∈ layout.lines, ¬SoundLine decode? line) ∧
    ∀ (layout : LineLayout) (failure : Failure),
      readTable decode? table (.ok (.file layout.content)) = .error failure ↔
        ∃ before line after, layout.lines = before ++ line :: after ∧
          (∀ earlier ∈ before, SoundLine decode? earlier) ∧
          RefusedLine decode? table (before.length + 1) line failure := by
  have byLines (layout : LineLayout) : readTable decode? table (.ok (.file layout.content)) =
      readLineRows decode? table 1 layout.lines := by
    rw [readTable, if_pos isTable, readLineTable, layout.contentLines_content]
  simp only [byLines]
  refine ⟨LineLayout.exists_content, fun _ _ => readLineRows_eq_ok_iff, fun array rows spelled => ?_,
    fun _ => exists_readLineRows_error_iff, fun _ _ => ?_⟩
  · rw [readTable, isDocument]
    exact readDocument_array array spelled
  · simp only [readLineRows_eq_error_iff, Nat.add_comm 1]

/-- Two rows, with a line of an ideographic space between them, the first ended by a carriage return and
a line feed and the second not ended. -/
def mixedLines : LineLayout where
  ended := [⟨"\x7b\"process\": \"P1\"\x7d".toList.map some, .returnFeed, by decide, nofun⟩,
    ⟨['\u3000'].map some, .feed, by decide, fun _ => by decide⟩]
  last := "[\"P2\", \"P1\"]".toList.map some
  unbroken := by decide

/-- The same rows in an array. -/
def mixedArray : ArrayText where
  front := ['\n']
  inside := []
  items := ["\x7b\"process\": \"P1\"\x7d".toList, " [\"P2\", \"P1\"]\t".toList]
  back := ['\n']
  blankFront := by decide
  blankInside := by decide
  blankBack := by decide

/-- A line that ends too early, after a blank line. -/
def brokenLines : LineLayout where
  ended := [⟨[], .returnFeed, by decide, nofun⟩]
  last := "\x7b\"process\": \"P1\"".toList.map some
  unbroken := by decide

/-- The line between the rows is passed over, and the blank line in front of the early end is counted. -/
theorem readTable_exact_mixedLines :
    isLineTable "pre.jsonl" = true ∧ isLineTable "pre.json" = false ∧
    readTable PreconditionRow.ofJson? "pre.jsonl" (.ok (.file mixedLines.content)) =
      .ok [⟨⟨"P1"⟩, ""⟩, ⟨⟨"P2"⟩, "P1"⟩] ∧
    readTable PreconditionRow.ofJson? "pre.json" (.ok (.file (mixedArray.chars.map some))) =
      .ok [⟨⟨"P1"⟩, ""⟩, ⟨⟨"P2"⟩, "P1"⟩] ∧
    readTable PreconditionRow.ofJson? "pre.jsonl" (.ok (.file brokenLines.content)) =
      .error (.during "Failed to parse row at pre.jsonl:2" .malformedJson) := by
  have isTable : isLineTable "pre.jsonl" = true := by cbv
  have isDocument : isLineTable "pre.json" = false := by cbv
  obtain ⟨_, lines, array, _, refused⟩ := readTable_exact PreconditionRow.ofJson? isTable isDocument
  have first : SpellsRow PreconditionRow.ofJson? "\x7b\"process\": \"P1\"\x7d".toList ⟨⟨"P1"⟩, ""⟩ := by
    unfold SpellsRow
    cbv
  have second : SpellsRow PreconditionRow.ofJson? "[\"P2\", \"P1\"]".toList ⟨⟨"P2"⟩, "P1"⟩ := by
    unfold SpellsRow
    cbv
  have padded : SpellsRow PreconditionRow.ofJson? " [\"P2\", \"P1\"]\t".toList ⟨⟨"P2"⟩, "P1"⟩ := by
    unfold SpellsRow
    cbv
  have broken : (Json.ofChars? "\x7b\"process\": \"P1\"".toList).bind PreconditionRow.ofJson? = none := by
    cbv
  refine ⟨isTable, isDocument, (lines mixedLines _).mpr ?_, array mixedArray _ ?_,
    (refused brokenLines _).mpr ⟨[[]], _, [], rfl, ?_, ?_⟩⟩
  · exact .row first (.blank (by decide) (.row second .nil))
  · exact .cons first (.cons padded .nil)
  · exact List.forall_mem_singleton.mpr ⟨[], rfl, .inl blank_nil⟩
  · exact .malformed (by decide) fun row spelled => by
      rw [SpellsRow, broken] at spelled
      cases spelled

end ProcessFlow
