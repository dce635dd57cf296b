import Mathlib
import ProcessFlow.Identifier
import ProcessFlow.Proofs.Text.Blank
import ProcessFlow.Proofs.Traversal

/-! # Columns of identifiers

The entries of a column are what stands between its commas, without the blanks around it, where this
leaves anything. A column is read exactly if each of its entries is an identifier. It is refused for
the first that is none.
-/

namespace ProcessFlow

/-! ## Characters of identifiers -/

theorem code_of_isIdChar {character : Char} (name : isIdChar character = true) :
    45 ≤ character.toNat ∧ character.toNat ≤ 46 ∨ 48 ≤ character.toNat ∧ character.toNat ≤ 57 ∨
      65 ≤ character.toNat ∧ character.toNat ≤ 90 ∨ character.toNat = 95 ∨
      97 ≤ character.toNat ∧ character.toNat ≤ 122 := by
  simp only [isIdChar, Char.isAlphanum, Char.isAlpha, Char.isUpper, Char.isLower, Char.isDigit,
    Bool.or_eq_true, Bool.and_eq_true, decide_eq_true_eq, beq_iff_eq, ge_iff_le,
    UInt32.le_iff_toNat_le] at name
  rcases name with (((((_ | _) | _) | rfl) | rfl) | rfl)
  · have bounds : 65 ≤ character.toNat ∧ character.toNat ≤ 90 := ‹_›
    omega
  · have bounds : 97 ≤ character.toNat ∧ character.toNat ≤ 122 := ‹_›
    omega
  · have bounds : 48 ≤ character.toNat ∧ character.toNat ≤ 57 := ‹_›
    omega
  · decide
  · decide
  · decide

theorem not_isIdChar_of_isBlank {character : Char} (blank : isBlank character = true) :
    isIdChar character = false := by
  refine Bool.eq_false_iff.mpr fun name => ?_
  have code := code_of_isIdChar name
  simp only [isBlank, Bool.or_eq_true, Bool.and_eq_true, decide_eq_true_eq, beq_iff_eq] at blank
  omega

theorem Ident.isIdChar_of_mem {kind : IdKind} {id : Ident kind} (valid : id.Valid) {character : Char}
    (member : character ∈ id.text.toList) : isIdChar character = true := by
  rw [Ident.Valid, isIdName, Bool.and_eq_true] at valid
  exact List.all_eq_true.mp valid.2 character member

/-- Blanks around an identifier make no difference to it. -/
theorem Ident.ofChars?_append (kind : IdKind) {text front back : List Char}
    (blankFront : ∀ character ∈ front, isBlank character = true)
    (blankBack : ∀ character ∈ back, isBlank character = true) :
    ofChars? kind (front ++ text ++ back) = ofChars? kind text := by
  rw [ofChars?, ofChars?, trimBlank_append blankFront blankBack]

/-! ## Columns -/

namespace Column

variable {column : String} {entry : List Char} {kind : IdKind}

def entries (column : String) : List (List Char) :=
  ((pieces ',' column.toList).map trimBlank).filter (· ≠ [])

def Valid (column : String) : Prop := ∀ entry ∈ entries column, isIdName entry = true

instance (column : String) : Decidable (Valid column) :=
  inferInstanceAs (Decidable (∀ entry ∈ entries column, isIdName entry = true))

/-- The first entry of the column that is no identifier. -/
def FirstInvalid (column : String) (entry : List Char) : Prop :=
  ∃ before after, entries column = before ++ entry :: after ∧
    (∀ valid ∈ before, isIdName valid = true) ∧ isIdName entry = false

def idents (kind : IdKind) (column : String) : List (Ident kind) :=
  (entries column).map fun entry => ⟨String.ofList entry⟩

theorem FirstInvalid.not_valid (invalid : FirstInvalid column entry) : ¬Valid column := by
  obtain ⟨before, after, shape, _, isInvalid⟩ := invalid
  intro valid
  have isValid := valid entry (shape ▸ List.mem_append_right before (List.mem_cons_self ..))
  rw [isInvalid] at isValid
  cases isValid

theorem exists_firstInvalid (invalid : ¬Valid column) : ∃ entry, FirstInvalid column entry := by
  cases first : (entries column).find? fun entry => !isIdName entry with
  | none =>
    simp only [List.find?_eq_none, Bool.not_eq_true', Bool.not_eq_false] at first
    exact absurd first invalid
  | some entry =>
    rw [List.find?_eq_some_iff_append] at first
    simp only [Bool.not_eq_true', Bool.not_not] at first
    obtain ⟨isInvalid, before, after, shape, allValid⟩ := first
    exact ⟨entry, before, after, shape, allValid, isInvalid⟩

/-- An entry has no blanks around it. -/
theorem ofChars?_entry (member : entry ∈ entries column) : Ident.ofChars? kind entry =
    if isIdName entry then .ok ⟨String.ofList entry⟩ else .error ⟨kind, String.ofList entry⟩ := by
  obtain ⟨piece, _, rfl⟩ := List.mem_map.mp (List.mem_filter.mp member).1
  rw [Ident.ofChars?, trimBlank_trimBlank]

theorem parseList?_of_valid (valid : Valid column) :
    Ident.parseList? kind column = .ok (idents kind column) := by
  apply mapM_of_ok
  intro entry member
  rw [ofChars?_entry member, if_pos (valid entry member)]

theorem parseList?_of_firstInvalid (invalid : FirstInvalid column entry) :
    Ident.parseList? kind column = .error ⟨kind, String.ofList entry⟩ := by
  obtain ⟨before, after, shape, allValid, isInvalid⟩ := invalid
  have member {other : List Char} (inside : other ∈ before ++ entry :: after) :
      other ∈ entries column := shape ▸ inside
  rw [← failure?_eq_some_iff, Ident.parseList?, failure?_mapM, ← entries, List.findSome?_eq_some_iff]
  refine ⟨before, entry, after, shape, ?_, fun other inFront => ?_⟩
  · rw [ofChars?_entry (member (by simp)), isInvalid]
    rfl
  · rw [ofChars?_entry (member (by simp [inFront])), allValid other inFront]
    rfl

/-! ## The same cells in another form -/

variable {cells others : List (List Char)} {other : String}

/-- The column of cells, with commas between them. -/
def write (cells : List (List Char)) : String := String.ofList (List.intercalate [','] cells)

/-- The entries of a column are its cells without the blanks around them, where this leaves anything. -/
theorem entries_write (absent : ∀ cell ∈ cells, ',' ∉ cell) :
    entries (write cells) = (cells.map trimBlank).filter (· ≠ []) := by
  cases cells with
  | nil => cbv
  | cons first rest =>
    rw [entries, write, String.toList_ofList, pieces_intercalate (List.cons_ne_nil first rest) absent]

theorem mem_entries_write (absent : ∀ cell ∈ cells, ',' ∉ cell) :
    entry ∈ entries (write cells) ↔ entry ≠ [] ∧ ∃ cell ∈ cells, trimBlank cell = entry := by
  simp only [entries_write absent, List.mem_filter, List.mem_map, decide_eq_true_eq, and_comm]

/-- Each cell that is not blank is one of the others, up to the blanks around it. -/
def Within (cells others : List (List Char)) : Prop :=
  ∀ cell ∈ cells, trimBlank cell ≠ [] → ∃ other ∈ others, trimBlank other = trimBlank cell

instance (cells others : List (List Char)) : Decidable (Within cells others) :=
  inferInstanceAs (Decidable (∀ cell ∈ cells, trimBlank cell ≠ [] →
    ∃ other ∈ others, trimBlank other = trimBlank cell))

/-- The columns are written from the same cells. The order of these may differ, how often each comes,
and the blanks around it, and blank cells do not count. -/
def Rewritten (column other : String) : Prop :=
  ∃ cells others, (∀ cell ∈ cells ++ others, ',' ∉ cell) ∧ column = write cells ∧
    other = write others ∧ Within cells others ∧ Within others cells

theorem mem_entries_write_of_within (absent : ∀ cell ∈ cells ++ others, ',' ∉ cell)
    (within : Within cells others) (member : entry ∈ entries (write cells)) :
    entry ∈ entries (write others) := by
  obtain ⟨absentCells, absentOthers⟩ := List.forall_mem_append.mp absent
  obtain ⟨solid, cell, isCell, rfl⟩ := (mem_entries_write absentCells).mp member
  exact (mem_entries_write absentOthers).mpr ⟨solid, within cell isCell solid⟩

/-- Columns of the same cells have the same entries. -/
theorem Rewritten.mem_entries_iff (rewritten : Rewritten column other) (entry : List Char) :
    entry ∈ entries column ↔ entry ∈ entries other := by
  obtain ⟨cells, others, absent, rfl, rfl, within, around⟩ := rewritten
  have absentSwapped : ∀ cell ∈ others ++ cells, ',' ∉ cell := fun cell member =>
    absent cell (List.mem_append.mpr (List.mem_append.mp member).symm)
  exact ⟨mem_entries_write_of_within absent within,
    mem_entries_write_of_within absentSwapped around⟩

/-! ## Columns with blanks -/

variable {ids : List (Ident kind)}

/-- Cells hold identifiers in their order, each with any blanks around it, and blank cells stand anywhere
between them. -/
inductive Pads : List (Ident kind) → List (List Char) → Prop where
  | nil : Pads [] []
  | blank {ids : List (Ident kind)} {cell : List Char} {cells : List (List Char)} (blank : Blank cell)
    (rest : Pads ids cells) : Pads ids (cell :: cells)
  | ident {id : Ident kind} {ids : List (Ident kind)} {front back : List Char}
    {cells : List (List Char)} (blankFront : Blank front) (blankBack : Blank back)
    (rest : Pads ids cells) : Pads (id :: ids) ((front ++ id.text.toList ++ back) :: cells)

/-- An identifier has no blanks around it. -/
theorem trimBlank_ident {id : Ident kind} (valid : id.Valid) : trimBlank id.text.toList = id.text.toList := by
  have solid {character : Char} (member : character ∈ id.text.toList) : isBlank character = false := by
    refine Bool.eq_false_iff.mpr fun blank => ?_
    have isName := Ident.isIdChar_of_mem valid member
    rw [not_isIdChar_of_isBlank blank] at isName
    cases isName
  exact trimBlank_eq_iff.mpr ⟨⟨[], [], by simp⟩, fun _ first => solid (List.mem_of_mem_head? first),
    fun _ last => solid (List.mem_of_mem_getLast? last)⟩

theorem ident_ne_nil {id : Ident kind} (valid : id.Valid) : id.text.toList ≠ [] := by
  rw [Ident.Valid, isIdName, Bool.and_eq_true] at valid
  simpa using valid.1

/-- Padded cells are without commas. -/
theorem Pads.comma_not_mem (pads : Pads ids cells) (valid : ∀ id ∈ ids, id.Valid) :
    ∀ cell ∈ cells, ',' ∉ cell := by
  have solid {text : List Char} (blank : Blank text) : ',' ∉ text := fun member =>
    absurd (blank _ member) (by decide)
  induction pads with
  | nil => exact nofun
  | blank blank _ ih => exact List.forall_mem_cons.mpr ⟨solid blank, ih valid⟩
  | ident blankFront blankBack _ ih =>
    obtain ⟨here, later⟩ := List.forall_mem_cons.mp valid
    refine List.forall_mem_cons.mpr ⟨?_, ih later⟩
    have unbroken : ',' ∉ _ := fun member => absurd (Ident.isIdChar_of_mem here member) (by decide)
    simp only [List.mem_append, not_or]
    exact ⟨⟨solid blankFront, unbroken⟩, solid blankBack⟩

/-- The entries of padded cells are the identifiers. -/
theorem Pads.entries_eq (pads : Pads ids cells) (valid : ∀ id ∈ ids, id.Valid) :
    (cells.map trimBlank).filter (· ≠ []) = ids.map (·.text.toList) := by
  induction pads with
  | nil => rfl
  | blank blank _ ih =>
    rw [List.map_cons, trimBlank_eq_nil_iff.mpr blank, List.filter_cons_of_neg (by decide), ih valid]
  | ident blankFront blankBack _ ih =>
    obtain ⟨here, later⟩ := List.forall_mem_cons.mp valid
    rw [List.map_cons, trimBlank_append blankFront blankBack, trimBlank_ident here, List.filter_cons,
      if_pos (decide_eq_true (ident_ne_nil here)), ih later, List.map_cons]

/-- The pieces of a column are its entries padded. -/
theorem pads_pieces (kind : IdKind) (column : String) :
    Pads (idents kind column) (pieces ',' column.toList) := by
  unfold idents entries
  induction pieces ',' column.toList with
  | nil => exact .nil
  | cons piece rest ih =>
    by_cases blank : trimBlank piece = []
    · rw [List.map_cons, blank, List.filter_cons_of_neg (by decide)]
      exact .blank (trimBlank_eq_nil_iff.mp blank) ih
    · obtain ⟨front, back, whole, blankFront, blankBack⟩ := (trims_trimBlank piece).around
      have padded : Pads ((⟨String.ofList (trimBlank piece)⟩ : Ident kind) :: _)
          ((front ++ (String.ofList (trimBlank piece)).toList ++ back) :: rest) :=
        .ident blankFront blankBack ih
      rw [String.toList_ofList, ← whole] at padded
      rwa [List.map_cons, List.filter_cons, if_pos (decide_eq_true blank), List.map_cons]

theorem write_pieces (column : String) : write (pieces ',' column.toList) = column := by
  rw [write, intercalate_pieces, String.ofList_toList]

/-! ## What is read -/

/-- Each entry of a column is an identifier if each piece between its commas is blank or consists of
characters of identifiers but for the blanks around it. -/
theorem valid_iff : Valid column ↔ ∀ piece ∈ pieces ',' column.toList,
    Blank piece ∨ ∀ character ∈ trimBlank piece, isIdChar character = true := by
  simp only [Valid, entries, List.mem_filter, List.mem_map, decide_eq_true_eq, and_imp,
    forall_exists_index, forall_apply_eq_imp_iff₂]
  refine forall₂_congr fun piece _ => ?_
  rw [← trimBlank_eq_nil_iff, isIdName, Bool.and_eq_true, List.all_eq_true, or_iff_not_imp_left]
  refine forall_congr' fun solid => and_iff_right ?_
  simpa using solid

theorem eq_idents_iff : ids = idents kind column ↔ ids.map (·.text.toList) = entries column := by
  have texts : (idents kind column).map (·.text.toList) = entries column := by
    simp [idents, Function.comp_def]
  rw [← texts]
  refine ⟨fun same => same ▸ rfl, fun same => List.map_injective_iff.mpr ?_ same⟩
  intro left right sameText
  cases left
  cases right
  exact congrArg Ident.mk (String.toList_inj.mp sameText)

theorem parseList?_eq_ok_iff :
    Ident.parseList? kind column = .ok ids ↔ Valid column ∧ ids = idents kind column := by
  by_cases valid : Valid column
  · rw [parseList?_of_valid valid, Except.ok.injEq, and_iff_right valid, eq_comm]
  · obtain ⟨entry, invalid⟩ := exists_firstInvalid valid
    rw [parseList?_of_firstInvalid invalid]
    exact ⟨nofun, fun read => absurd read.1 valid⟩

theorem parseList?_eq_error_iff {error : IdError} : Ident.parseList? kind column = .error error ↔
    error.kind = kind ∧ FirstInvalid column error.value.toList := by
  constructor
  · intro failed
    have invalid : ¬Valid column := by
      intro valid
      rw [parseList?_of_valid valid] at failed
      cases failed
    obtain ⟨entry, first⟩ := exists_firstInvalid invalid
    rw [parseList?_of_firstInvalid first] at failed
    cases failed
    exact ⟨rfl, by rwa [String.toList_ofList]⟩
  · rintro ⟨rfl, first⟩
    rw [parseList?_of_firstInvalid first, String.ofList_toList]

/-- The columns that are read as identifiers are those that hold valid ones in this order, padded. -/
theorem parseList?_eq_ok_iff_pads : Ident.parseList? kind column = .ok ids ↔
    (∀ id ∈ ids, id.Valid) ∧ ∃ cells, Pads ids cells ∧ column = write cells := by
  rw [parseList?_eq_ok_iff]
  constructor
  · rintro ⟨valid, rfl⟩
    refine ⟨fun id member => ?_, _, pads_pieces kind column, (write_pieces column).symm⟩
    obtain ⟨entry, isEntry, rfl⟩ := List.mem_map.mp member
    rw [Ident.Valid, String.toList_ofList]
    exact valid entry isEntry
  · rintro ⟨valid, cells, pads, rfl⟩
    have held : entries (write cells) = ids.map (·.text.toList) := by
      rw [entries_write (pads.comma_not_mem valid), pads.entries_eq valid]
    refine ⟨fun entry member => ?_, eq_idents_iff.mpr held.symm⟩
    rw [held] at member
    obtain ⟨id, isId, rfl⟩ := List.mem_map.mp member
    exact valid id isId

end Column

/-- A column is read exactly if each piece between its commas is blank or an identifier with any blanks
around it, and it is refused for the first of its entries that is none. What is read is the entries in
their order; so it is valid identifiers, and every column that holds these in their order, with any
blanks around them and any blank entries between them, is read as them. -/
theorem Ident.parseList?_exact (kind : IdKind) (column : String) :
    ((∃ ids, parseList? kind column = .ok ids) ↔ ∀ piece ∈ pieces ',' column.toList,
      Blank piece ∨ ∀ character ∈ trimBlank piece, isIdChar character = true) ∧
    (∀ ids, parseList? kind column = .ok ids →
      ids.map (·.text.toList) = ((pieces ',' column.toList).map trimBlank).filter (· ≠ [])) ∧
    (∀ error, parseList? kind column = .error error ↔
      error.kind = kind ∧ Column.FirstInvalid column error.value.toList) ∧
    ∀ ids, parseList? kind column = .ok ids ↔
      (∀ id ∈ ids, id.Valid) ∧ ∃ cells, Column.Pads ids cells ∧ column = Column.write cells := by
  refine ⟨?_, ?_, fun _ => Column.parseList?_eq_error_iff, fun _ => Column.parseList?_eq_ok_iff_pads⟩
  · rw [← Column.valid_iff]
    simp only [Column.parseList?_eq_ok_iff, exists_and_left, exists_eq, and_true]
  · intro ids read
    exact Column.eq_idents_iff.mp (Column.parseList?_eq_ok_iff.mp read).2

/-- A column with blank entries, one of which is an ideographic space. -/
def paddedColumn : String := ", M1,\u3000,M10\t"

/-- A piece with a blank inside is not read. -/
theorem Ident.parseList?_exact_paddedColumn :
    parseList? .milestone paddedColumn = .ok [⟨"M1"⟩, ⟨"M10"⟩] ∧
    [(⟨"M1"⟩ : MilestoneId), ⟨"M10"⟩].map (·.text.toList) =
      ((pieces ',' paddedColumn.toList).map trimBlank).filter (· ≠ []) ∧
    parseList? .milestone "M1,,M 1\u00a0,M;" = .error ⟨.milestone, "M 1"⟩ := by
  obtain ⟨_, entries, _, padded⟩ := Ident.parseList?_exact .milestone paddedColumn
  obtain ⟨_, _, refused, _⟩ := Ident.parseList?_exact .milestone "M1,,M 1\u00a0,M;"
  have read : parseList? .milestone paddedColumn = .ok [⟨"M1"⟩, ⟨"M10"⟩] := by
    let cells : List (List Char) :=
      [[], [' '] ++ "M1".toList ++ [], ['\u3000'], [] ++ "M10".toList ++ ['\t']]
    have pads : Column.Pads [(⟨"M1"⟩ : MilestoneId), ⟨"M10"⟩] cells :=
      .blank (by decide) (.ident (by decide) (by decide)
        (.blank (by decide) (.ident (by decide) (by decide) .nil)))
    exact (padded _).mpr ⟨by decide, cells, pads, rfl⟩
  exact ⟨read, entries _ read, (refused _).mpr ⟨rfl, [['M', '1']], [['M', ';']], by decide⟩⟩

end ProcessFlow
