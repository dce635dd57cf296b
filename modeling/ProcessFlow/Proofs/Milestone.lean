import Mathlib
import ProcessFlow.Proofs.Identifier
import ProcessFlow.Timeline

/-! # Reading a milestone table

A table is read exactly if the columns of all rows are valid and no two rows name the same milestone.
It is refused for the first row that does not fit, for its successors before its groups, and for both
before its milestone. A table that is read is settled by its rows as a set, and each row by the sets
of its processes and of the entries of its columns.
-/

namespace ProcessFlow

/-! ## Rows -/

namespace MilestoneRow

variable {row : MilestoneRow} {taken : MilestoneId → Prop} {error : MilestoneError}

structure Valid (row : MilestoneRow) : Prop where
  successors : Column.Valid row.successors
  groups : Column.Valid row.groups

def milestone (row : MilestoneRow) : Milestone where
  id := row.id
  processes := .ofList row.processes
  successors := .ofList (Column.idents .milestone row.successors)
  groups := .ofList (Column.idents .group row.groups)

/-- What is wrong with a row where some milestones are taken. -/
inductive Fault (row : MilestoneRow) (taken : MilestoneId → Prop) : MilestoneError → Prop
  | successors {entry : List Char} (invalid : Column.FirstInvalid row.successors entry) :
    Fault row taken (.invalidColumn row.id .successors ⟨.milestone, String.ofList entry⟩)
  | groups {entry : List Char} (valid : Column.Valid row.successors)
    (invalid : Column.FirstInvalid row.groups entry) :
    Fault row taken (.invalidColumn row.id .groups ⟨.group, String.ofList entry⟩)
  | duplicate (valid : row.Valid) (isTaken : taken row.id) : Fault row taken (.duplicate row.id)

/-- A row without fault is valid, and its milestone is not taken. -/
theorem exists_fault (misfit : ¬(row.Valid ∧ ¬taken row.id)) : ∃ error, row.Fault taken error := by
  by_cases successors : Column.Valid row.successors
  · by_cases groups : Column.Valid row.groups
    · have isTaken : taken row.id := by
        by_contra free
        exact misfit ⟨⟨successors, groups⟩, free⟩
      exact ⟨_, .duplicate ⟨successors, groups⟩ isTaken⟩
    · obtain ⟨entry, invalid⟩ := Column.exists_firstInvalid groups
      exact ⟨_, .groups successors invalid⟩
  · obtain ⟨entry, invalid⟩ := Column.exists_firstInvalid successors
    exact ⟨_, .successors invalid⟩

end MilestoneRow

namespace Milestone

variable {kind : IdKind} {id : MilestoneId} {column : MilestoneColumn} {text : String}
  {entry : List Char}

theorem readColumn?_of_valid (valid : Column.Valid text) :
    readColumn? kind id column text = .ok (.ofList (Column.idents kind text)) := by
  rw [readColumn?, Column.parseList?_of_valid valid]

theorem readColumn?_of_firstInvalid (invalid : Column.FirstInvalid text entry) :
    readColumn? kind id column text =
      .error (.invalidColumn id column ⟨kind, String.ofList entry⟩) := by
  rw [readColumn?, Column.parseList?_of_firstInvalid invalid]

theorem ofRow?_of_valid {row : MilestoneRow} (valid : row.Valid) : ofRow? row = .ok row.milestone := by
  rw [ofRow?, readColumn?_of_valid valid.successors, readColumn?_of_valid valid.groups]
  rfl

end Milestone

namespace MilestoneTable

variable {table next : MilestoneTable} {row : MilestoneRow} {rows : List MilestoneRow}
  {error : MilestoneError}

theorem addRow?_of_fits (valid : row.Valid) (free : row.id ∉ table.milestones) :
    table.addRow? row = .ok (table.insert row.milestone) := by
  rw [addRow?, Milestone.ofRow?_of_valid valid]
  exact if_neg free

theorem addRow?_of_fault (fault : row.Fault (· ∈ table.milestones) error) :
    table.addRow? row = .error error := by
  rw [addRow?]
  cases fault with
  | successors invalid =>
    rw [Milestone.ofRow?, Milestone.readColumn?_of_firstInvalid invalid]
    rfl
  | groups valid invalid =>
    rw [Milestone.ofRow?, Milestone.readColumn?_of_valid valid,
      Milestone.readColumn?_of_firstInvalid invalid]
    rfl
  | duplicate valid isTaken =>
    rw [Milestone.ofRow?_of_valid valid]
    exact if_pos isTaken

theorem addRow?_eq_ok_iff : table.addRow? row = .ok next ↔
    row.Valid ∧ row.id ∉ table.milestones ∧ table.insert row.milestone = next := by
  constructor
  · intro added
    by_cases fits : row.Valid ∧ row.id ∉ table.milestones
    · rw [addRow?_of_fits fits.1 fits.2] at added
      exact ⟨fits.1, fits.2, Except.ok.inj added⟩
    · obtain ⟨error, fault⟩ := MilestoneRow.exists_fault fits
      rw [addRow?_of_fault fault] at added
      cases added
  · rintro ⟨valid, free, rfl⟩
    exact addRow?_of_fits valid free

theorem addRow?_eq_error_iff : table.addRow? row = .error error ↔
    row.Fault (· ∈ table.milestones) error := by
  refine ⟨fun refused => ?_, addRow?_of_fault⟩
  by_cases fits : row.Valid ∧ row.id ∉ table.milestones
  · rw [addRow?_of_fits fits.1 fits.2] at refused
    cases refused
  · obtain ⟨other, fault⟩ := MilestoneRow.exists_fault fits
    rw [addRow?_of_fault fault] at refused
    cases refused
    exact fault

/-! ## Tables -/

/-- All rows are valid, and no two name the same milestone. -/
structure Accepted (rows : List MilestoneRow) : Prop where
  valid : ∀ row ∈ rows, row.Valid
  distinct : (rows.map MilestoneRow.id).Nodup

/-- The table holds the milestone of each row and no other. -/
def Holds (table : MilestoneTable) (rows : List MilestoneRow) : Prop :=
  ∀ id milestone, table.get? id = some milestone ↔
    ∃ row ∈ rows, row.id = id ∧ row.milestone = milestone

/-- Tables of the same rows are the same. -/
theorem Holds.eq (holds : table.Holds rows) (others : next.Holds rows) : table = next := by
  have same : table.milestones = next.milestones := by
    apply OrderedMap.ext_get?
    intro id
    apply Option.ext
    intro milestone
    exact (holds id milestone).trans (others id milestone).symm
  cases table
  cases next
  cases same
  rfl

theorem Holds.mem_milestones (holds : table.Holds rows) {id : MilestoneId} :
    id ∈ table.milestones ↔ id ∈ rows.map MilestoneRow.id := by
  rw [OrderedMap.mem_iff_exists, List.mem_map]
  simp only [← OrderedMap.get?_eq_some_iff]
  constructor
  · rintro ⟨milestone, found⟩
    obtain ⟨row, member, same, _⟩ := (holds id milestone).mp found
    exact ⟨row, member, same⟩
  · rintro ⟨row, member, same⟩
    exact ⟨row.milestone, (holds id _).mpr ⟨row, member, same, rfl⟩⟩

theorem Holds.insert (holds : table.Holds rows) (free : row.id ∉ table.milestones) :
    (table.insert row.milestone).Holds (rows ++ [row]) := by
  intro id milestone
  rw [get?, MilestoneTable.insert, OrderedMap.get?_insert]
  split
  · rename_i same
    obtain rfl : id = row.id := same
    constructor
    · intro found
      exact ⟨row, by simp, rfl, Option.some.inj found⟩
    · rintro ⟨other, member, sameId, rfl⟩
      rcases List.mem_append.mp member with earlier | isRow
      · rw [holds.mem_milestones, ← sameId] at free
        exact absurd (List.mem_map_of_mem earlier) free
      · rw [List.mem_singleton.mp isRow]
  · rename_i different
    change id ≠ row.id at different
    refine (holds id milestone).trans ⟨?_, ?_⟩
    · rintro ⟨other, member, same, stored⟩
      exact ⟨other, List.mem_append_left _ member, same, stored⟩
    · rintro ⟨other, member, same, stored⟩
      rcases List.mem_append.mp member with earlier | isRow
      · exact ⟨other, earlier, same, stored⟩
      · rw [List.mem_singleton.mp isRow] at same
        exact absurd same.symm different

theorem accepted_append_iff : Accepted (rows ++ [row]) ↔
    Accepted rows ∧ row.Valid ∧ row.id ∉ rows.map MilestoneRow.id := by
  have valid_iff : (∀ other ∈ rows ++ [row], other.Valid) ↔
      (∀ other ∈ rows, other.Valid) ∧ row.Valid := by
    simp [or_imp, forall_and]
  have distinct_iff : ((rows ++ [row]).map MilestoneRow.id).Nodup ↔
      (rows.map MilestoneRow.id).Nodup ∧ row.id ∉ rows.map MilestoneRow.id := by
    rw [List.map_append, List.map_singleton, ← List.concat_eq_append, List.nodup_concat, and_comm]
  constructor
  · rintro ⟨valid, distinct⟩
    obtain ⟨validRows, validRow⟩ := valid_iff.mp valid
    obtain ⟨distinctRows, free⟩ := distinct_iff.mp distinct
    exact ⟨⟨validRows, distinctRows⟩, validRow, free⟩
  · rintro ⟨⟨validRows, distinctRows⟩, validRow, free⟩
    exact ⟨valid_iff.mpr ⟨validRows, validRow⟩, distinct_iff.mpr ⟨distinctRows, free⟩⟩

/-- A table that is read is one of accepted rows, and holds them. -/
theorem accepted_of_ofRows? (read : ofRows? rows = .ok table) :
    Accepted rows ∧ table.Holds rows := by
  induction rows using List.reverseRecOn generalizing table with
  | nil =>
    cases read
    exact ⟨⟨nofun, .nil⟩, fun _ _ => ⟨nofun, nofun⟩⟩
  | append_singleton rows row ih =>
    rw [ofRows?, List.foldlM_append, ← ofRows?] at read
    cases readRows : ofRows? rows with
    | error error =>
      rw [readRows] at read
      cases read
    | ok earlier =>
      rw [readRows] at read
      obtain ⟨accepted, holds⟩ := ih readRows
      have added : earlier.addRow? row = .ok table := by
        rwa [← bind_pure (earlier.addRow? row)]
      obtain ⟨valid, free, rfl⟩ := addRow?_eq_ok_iff.mp added
      refine ⟨accepted_append_iff.mpr ⟨accepted, valid, ?_⟩, holds.insert free⟩
      rwa [← holds.mem_milestones]

/-- Rows are refused at a row that does not fit behind accepted ones. -/
theorem exists_fault_of_ofRows? (refused : ofRows? rows = .error error) :
    ∃ before row after, rows = before ++ row :: after ∧ Accepted before ∧
      row.Fault (· ∈ before.map MilestoneRow.id) error := by
  obtain ⟨before, row, after, table, shape, read, atRow⟩ := foldlM_eq_error_iff.mp refused
  obtain ⟨accepted, holds⟩ := accepted_of_ofRows? read
  have fault := addRow?_eq_error_iff.mp atRow
  simp only [holds.mem_milestones] at fault
  exact ⟨before, row, after, shape, accepted, fault⟩

theorem not_accepted_of_fault {before after : List MilestoneRow}
    (fault : row.Fault (· ∈ before.map MilestoneRow.id) error) :
    ¬Accepted (before ++ row :: after) := by
  intro accepted
  have valid := accepted.valid row (by simp)
  cases fault with
  | successors invalid => exact invalid.not_valid valid.successors
  | groups _ invalid => exact invalid.not_valid valid.groups
  | duplicate _ isTaken =>
    have distinct := accepted.distinct
    rw [List.map_append, List.map_cons, List.nodup_append] at distinct
    exact distinct.2.2 _ isTaken _ (List.mem_cons_self ..) rfl

theorem exists_ofRows?_iff : (∃ table, ofRows? rows = .ok table) ↔ Accepted rows := by
  refine ⟨fun ⟨table, read⟩ => (accepted_of_ofRows? read).1, fun accepted => ?_⟩
  cases read : ofRows? rows with
  | ok table => exact ⟨table, rfl⟩
  | error error =>
    obtain ⟨before, row, after, rfl, _, fault⟩ := exists_fault_of_ofRows? read
    exact absurd accepted (not_accepted_of_fault fault)

/-- The error of rows is that of the first row that does not fit. -/
theorem ofRows?_eq_error_iff : ofRows? rows = .error error ↔
    ∃ before row after, rows = before ++ row :: after ∧ Accepted before ∧
      row.Fault (· ∈ before.map MilestoneRow.id) error := by
  refine ⟨exists_fault_of_ofRows?, ?_⟩
  rintro ⟨before, row, after, shape, accepted, fault⟩
  obtain ⟨table, read⟩ := exists_ofRows?_iff.mpr accepted
  simp only [← (accepted_of_ofRows? read).2.mem_milestones] at fault
  exact foldlM_eq_error_iff.mpr
    ⟨before, row, after, table, shape, read, addRow?_eq_error_iff.mpr fault⟩

end MilestoneTable

/-! ## The same rows in another form -/

namespace MilestoneRow

variable {row other : MilestoneRow}

/-- The rows have the same milestone, and the same processes and cells. What order these come in, how
often each comes, and the blanks around it do not count. -/
structure SameCells (row other : MilestoneRow) : Prop where
  id : row.id = other.id
  processes : ∀ process, process ∈ row.processes ↔ process ∈ other.processes
  successors : Column.Rewritten row.successors other.successors
  groups : Column.Rewritten row.groups other.groups

theorem SameCells.valid (same : row.SameCells other) (valid : row.Valid) : other.Valid where
  successors entry member :=
    valid.successors entry ((same.successors.mem_entries_iff entry).mpr member)
  groups entry member := valid.groups entry ((same.groups.mem_entries_iff entry).mpr member)

theorem SameCells.milestone_eq (same : row.SameCells other) : row.milestone = other.milestone := by
  have idents_eq {kind : IdKind} {left right : String} (rewritten : Column.Rewritten left right) :
      OrderedSet.ofList (Column.idents kind left) = .ofList (Column.idents kind right) := by
    ext id
    simp only [OrderedSet.mem_ofList, Column.idents, List.mem_map, rewritten.mem_entries_iff]
  have processes : OrderedSet.ofList row.processes = .ofList other.processes := by
    ext process
    rw [OrderedSet.mem_ofList, OrderedSet.mem_ofList, same.processes]
  rw [milestone, milestone, same.id, processes, idents_eq same.successors, idents_eq same.groups]

end MilestoneRow

namespace MilestoneTable

variable {rows others : List MilestoneRow} {table : MilestoneTable}

/-- The rows come in another order, and with their cells in another form. -/
def Rearranged (rows others : List MilestoneRow) : Prop :=
  ∃ middle, rows.Perm middle ∧ List.Forall₂ MilestoneRow.SameCells middle others

theorem Rearranged.exists_row (rearranged : Rearranged rows others) {other : MilestoneRow}
    (member : other ∈ others) : ∃ row ∈ rows, row.SameCells other := by
  obtain ⟨middle, shuffled, same⟩ := rearranged
  obtain ⟨row, isMiddle, sameCells⟩ := exists_of_forall₂ same member
  exact ⟨row, shuffled.mem_iff.mpr isMiddle, sameCells⟩

theorem Rearranged.exists_other (rearranged : Rearranged rows others) {row : MilestoneRow}
    (member : row ∈ rows) : ∃ other ∈ others, row.SameCells other := by
  obtain ⟨middle, shuffled, same⟩ := rearranged
  exact exists_of_forall₂ same.flip (shuffled.mem_iff.mp member)

theorem Rearranged.accepted (rearranged : Rearranged rows others) (accepted : Accepted rows) :
    Accepted others where
  valid other member := by
    obtain ⟨row, isRow, same⟩ := rearranged.exists_row member
    exact same.valid (accepted.valid row isRow)
  distinct := by
    obtain ⟨middle, shuffled, same⟩ := rearranged
    have ids : middle.map MilestoneRow.id = others.map MilestoneRow.id := by
      rw [← List.forall₂_eq_eq_eq, List.forall₂_map_left_iff, List.forall₂_map_right_iff]
      exact same.imp fun _ _ same => same.id
    rw [← ids]
    exact (shuffled.map _).nodup_iff.mp accepted.distinct

theorem Rearranged.holds (rearranged : Rearranged rows others) (holds : table.Holds others) :
    table.Holds rows := by
  intro id milestone
  rw [holds]
  constructor
  · rintro ⟨other, member, rfl, rfl⟩
    obtain ⟨row, isRow, same⟩ := rearranged.exists_row member
    exact ⟨row, isRow, same.id, same.milestone_eq⟩
  · rintro ⟨row, member, rfl, rfl⟩
    obtain ⟨other, isOther, same⟩ := rearranged.exists_other member
    exact ⟨other, isOther, same.id.symm, same.milestone_eq.symm⟩

/-- Rows in another form are read to the same table. -/
theorem Rearranged.ofRows?_eq (rearranged : Rearranged rows others)
    (read : ofRows? rows = .ok table) : ofRows? others = .ok table := by
  obtain ⟨accepted, holds⟩ := accepted_of_ofRows? read
  obtain ⟨other, readOthers⟩ := exists_ofRows?_iff.mpr (rearranged.accepted accepted)
  have same := holds.eq (rearranged.holds (accepted_of_ofRows? readOthers).2)
  rw [same, readOthers]

/-- Rows are read exactly if all are valid and distinct, and are refused for the first that does not
fit. What is read holds the milestones of the rows, and depends neither on the order of the rows nor
on the form of their cells. The blanks around a process do not count where it is read. -/
theorem ofRows?_exact (rows : List MilestoneRow) :
    ((∃ table, ofRows? rows = .ok table) ↔ Accepted rows) ∧
    (∀ error, ofRows? rows = .error error ↔
      ∃ before row after, rows = before ++ row :: after ∧ Accepted before ∧
        row.Fault (· ∈ before.map MilestoneRow.id) error) ∧
    (∀ table, ofRows? rows = .ok table → table.Holds rows ∧
      ∀ others, Rearranged rows others → ∃ other, ofRows? others = .ok other ∧ other = table ∧
        other.groups = table.groups ∧
        (∀ group, other.dependencyGraph group = table.dependencyGraph group) ∧
        ∀ plan : Plan, plan.timeline other = plan.timeline table) ∧
    ∀ front text back : String, (∀ character ∈ front.toList ++ back.toList, isBlank character = true) →
      Ident.parse? .process (front ++ text ++ back) = Ident.parse? .process text := by
  refine ⟨exists_ofRows?_iff, fun _ => ofRows?_eq_error_iff, fun table read => ?_, ?_⟩
  · refine ⟨(accepted_of_ofRows? read).2, fun others rearranged => ?_⟩
    exact ⟨table, rearranged.ofRows?_eq read, rfl, rfl, fun _ => rfl, fun _ => rfl⟩
  · intro front text back blank
    obtain ⟨blankFront, blankBack⟩ := List.forall_mem_append.mp blank
    rw [Ident.parse?, Ident.parse?, String.toList_append, String.toList_append,
      Ident.ofChars?_append .process blankFront blankBack]

/-- Two rows, and the same rows in another order with their cells in another form. -/
def written : List MilestoneRow :=
  [⟨⟨"M1"⟩, [⟨"P1"⟩, ⟨"P2"⟩], "M2,M3", "G"⟩, ⟨⟨"M2"⟩, [], "", "G,H"⟩]

def rewritten : List MilestoneRow :=
  [⟨⟨"M2"⟩, [], " , ", "H,G , H"⟩, ⟨⟨"M1"⟩, [⟨"P2"⟩, ⟨"P1"⟩, ⟨"P2"⟩], " M3,,M2\u3000", "G,"⟩]

theorem rearranged_rewritten : Rearranged written rewritten := by
  have groups : Column.Rewritten "G,H" "H,G , H" :=
    ⟨[['G'], ['H']], [['H'], ['G', ' '], [' ', 'H']], by decide, by cbv, by cbv, by decide +kernel,
      by decide +kernel⟩
  have successors : Column.Rewritten "M2,M3" " M3,,M2\u3000" :=
    ⟨[['M', '2'], ['M', '3']], [[' ', 'M', '3'], [], ['M', '2', '\u3000']], by decide, by cbv, by cbv,
      by decide +kernel, by decide +kernel⟩
  have blankCells : Column.Rewritten "" " , " :=
    ⟨[], [[' '], [' ']], by decide, by cbv, by cbv, by decide +kernel, by decide +kernel⟩
  have lastBlank : Column.Rewritten "G" "G," :=
    ⟨[['G']], [['G'], []], by decide, by cbv, by cbv, by decide +kernel, by decide +kernel⟩
  have processes (process : ProcessId) : process ∈ [(⟨"P1"⟩ : ProcessId), ⟨"P2"⟩] ↔
      process ∈ [(⟨"P2"⟩ : ProcessId), ⟨"P1"⟩, ⟨"P2"⟩] := by
    simp only [List.mem_cons, List.not_mem_nil, or_false]
    tauto
  refine ⟨written.reverse, (List.reverse_perm written).symm, ?_⟩
  exact .cons ⟨rfl, fun _ => Iff.rfl, blankCells, groups⟩
    (.cons ⟨rfl, processes, successors, lastBlank⟩ .nil)

/-- Both are read to one table, and with a third row that has two faults they are refused for the
first of these. -/
theorem ofRows?_exact_rewritten :
    (∃ table, ofRows? written = .ok table ∧ ofRows? rewritten = .ok table) ∧
    ofRows? (written ++ [⟨⟨"M1"⟩, [], "M2, M 3", "!"⟩]) =
      .error (.invalidColumn ⟨"M1"⟩ .successors ⟨.milestone, "M 3"⟩) ∧
    Ident.parse? .process (" " ++ "P1" ++ "\u3000") = .ok ⟨"P1"⟩ := by
  have successors : ∀ row ∈ written, Column.Valid row.successors := by decide +kernel
  have groups : ∀ row ∈ written, Column.Valid row.groups := by decide +kernel
  have accepted : Accepted written :=
    ⟨fun row member => ⟨successors row member, groups row member⟩, by decide⟩
  have invalid : Column.FirstInvalid "M2, M 3" "M 3".toList :=
    ⟨["M2".toList], [], by cbv, by decide, by decide⟩
  obtain ⟨isRead, _, settled, padded⟩ := ofRows?_exact written
  obtain ⟨_, refused, _⟩ := ofRows?_exact (written ++ [⟨⟨"M1"⟩, [], "M2, M 3", "!"⟩])
  obtain ⟨table, read⟩ := isRead.mpr accepted
  obtain ⟨_, readOther, rfl, _⟩ := (settled table read).2 rewritten rearranged_rewritten
  refine ⟨⟨_, read, readOther⟩, ?_, ?_⟩
  · exact (refused _).mpr ⟨written, _, [], rfl, accepted, .successors invalid⟩
  · exact (padded " " "P1" "\u3000" (List.all_eq_true.mp (by cbv))).trans (by cbv)

end MilestoneTable

end ProcessFlow
