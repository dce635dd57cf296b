import ProcessFlow.Proofs.Graph.Induced
import ProcessFlow.Proofs.Precondition.Report

/-! # Repairing a cell

When the text of a first row does not parse, its process has no precondition, so no reference leaves it
and no cycle runs through it. A text that parses in its place adds just these: references from the
process, and cycles through it. All other problems stay where they are, so the report without what stems
from the repaired cell is the old report without the one text that did not parse.
-/

namespace ProcessFlow

/-- Whether a problem needs the precondition of a process: a reference from the process, or a cycle
through it. -/
def Problem.stemsFrom (process : ProcessId) : Problem → Bool
  | .unknown source _ => source = process
  | .cyclic cycle => cycle.contains process
  | .malformed _ _ | .duplicate _ => false

/-- The row with another text in its cell. -/
def PreconditionRow.withText (row : PreconditionRow) (text : String) : PreconditionRow :=
  { row with precondition := text }

@[simp] theorem PreconditionRow.process_withText (row : PreconditionRow) (text : String) :
    (row.withText text).process = row.process := rfl

variable {rows before after : List PreconditionRow} {row : PreconditionRow} {earlier : List ProcessId}
  {process : ProcessId} {problem : Problem} {error : SyntaxError} {text : String} {tree : Precondition}

/-- What the report says behind a row: problems of later rows, references, and cycles. -/
def problemsBehind (before : List PreconditionRow) (row : PreconditionRow) (after : List PreconditionRow) :
    List Problem :=
  rowProblems (row.process :: before.map PreconditionRow.process) after ++
    unknownProblems (before ++ row :: after) ++
    (referenceGraph (checkPreconditions (before ++ row :: after)).preconditions).cycles.map .cyclic

/-! ## Problems of single rows -/

/-- The problems of single rows are repetitions, and texts of new processes that do not parse. -/
theorem mem_rowProblems (member : problem ∈ rowProblems earlier rows) :
    (∃ process, problem = .duplicate process) ∨ ∃ process error, problem = .malformed process error ∧
      process ∈ rows.map PreconditionRow.process ∧ process ∉ earlier := by
  induction rows generalizing earlier with
  | nil => cases member
  | cons row rest ih =>
    rw [rowProblems, List.mem_append, Option.mem_toList, PreconditionRow.problem?] at member
    rcases member with own | later
    · split at own
      · exact .inl ⟨_, (Option.some.inj own).symm⟩
      · rename_i new
        rw [PreconditionRow.malformed?] at own
        split at own
        · cases own
        · exact .inr ⟨_, _, (Option.some.inj own).symm, List.mem_cons_self .., new⟩
    · refine (ih later).imp_right ?_
      rintro ⟨process, error, same, named, new⟩
      exact ⟨process, error, same, List.mem_cons_of_mem _ named,
        fun old => new (List.mem_cons_of_mem _ old)⟩

theorem filter_rowProblems :
    (rowProblems earlier rows).filter (!·.stemsFrom process) = rowProblems earlier rows := by
  rw [List.filter_eq_self]
  intro problem member
  rcases mem_rowProblems member with ⟨_, rfl⟩ | ⟨_, _, rfl, _⟩ <;> rfl

section First

variable (first : row.process ∉ before.map PreconditionRow.process)

include first

/-- The first row of a process has a problem of its own only if its text does not parse. -/
theorem rowProblems_first : rowProblems [] (before ++ row :: after) = rowProblems [] before ++
    row.malformed?.toList ++ rowProblems (row.process :: before.map PreconditionRow.process) after := by
  rw [rowProblems_append, List.append_nil, rowProblems, PreconditionRow.problem?, if_neg first,
    List.append_assoc]

/-- The problem of a first row stands between those of the rows before it and those behind it. -/
theorem problems_of_first : (checkPreconditions (before ++ row :: after)).problems =
    rowProblems [] before ++ row.malformed?.toList ++ problemsBehind before row after := by
  rw [problems_checkPreconditions, rowProblems_first first, problemsBehind]
  simp only [List.append_assoc]

/-- A text that does not parse is reported of the first row of its process. -/
theorem parse?_of_malformed (reported : .malformed row.process error ∈ rowProblems [] (before ++ row :: after)) :
    Precondition.parse? row.process row.precondition = .error error := by
  rw [rowProblems_first first, List.mem_append, List.mem_append, Option.mem_toList] at reported
  rcases reported with (inBefore | own) | inAfter
  · rcases mem_rowProblems inBefore with ⟨_, same⟩ | ⟨_, _, same, named, _⟩
    · cases same
    · cases same
      exact absurd named first
  · rw [PreconditionRow.malformed?] at own
    split at own
    · cases own
    · rename_i parsed
      cases own
      exact parsed
  · rcases mem_rowProblems inAfter with ⟨_, same⟩ | ⟨_, _, same, _, new⟩
    · cases same
    · cases same
      exact absurd (List.mem_cons_self ..) new

/-- The first row of a process gives it its precondition, and the other rows the other ones. -/
theorem firstCell?_of_first (process : ProcessId) :
    TableReading.firstCell? (before ++ row :: after) process =
      if row.process = process then (Precondition.parse? row.process row.precondition).toOption
      else TableReading.firstCell? (before ++ after) process := by
  rw [TableReading.firstCell?, TableReading.firstCell?, List.find?_append, List.find?_append]
  split
  · rename_i same
    have none : (before.find? fun row => row.process = process) = none := by
      rw [List.find?_eq_none]
      intro other member isSame
      exact first (same ▸ of_decide_eq_true isSame ▸ List.mem_map_of_mem member)
    rw [none, List.find?_cons_of_pos (by simpa using same)]
    rfl
  · rename_i different
    rw [List.find?_cons_of_neg (by simpa using different)]

/-! ## Another text in a cell that does not parse -/

/-- The other preconditions stay. -/
theorem firstCell?_withText (different : row.process ≠ process) (text : String) :
    TableReading.firstCell? (before ++ row.withText text :: after) process =
      TableReading.firstCell? (before ++ row :: after) process := by
  have firstToo : (row.withText text).process ∉ before.map PreconditionRow.process := first
  rw [firstCell?_of_first first, firstCell?_of_first firstToo, PreconditionRow.process_withText,
    if_neg different, if_neg different]

variable (fails : Precondition.parse? row.process row.precondition = .error error)

include fails

theorem firstCell?_of_fails :
    TableReading.firstCell? (before ++ row :: after) row.process = none := by
  rw [firstCell?_of_first first, if_pos rfl, fails]
  rfl

/-- References from other processes stay. -/
theorem filter_unknownProblems (text : String) :
    (unknownProblems (before ++ row.withText text :: after)).filter (!·.stemsFrom row.process) =
      unknownProblems (before ++ row :: after) := by
  have processes : (before ++ row.withText text :: after).map PreconditionRow.process =
      (before ++ row :: after).map PreconditionRow.process := by simp
  rw [unknownProblems, unknownProblems, processes, List.filter_flatMap]
  refine List.flatMap_congr fun process _ => ?_
  by_cases same : row.process = process
  · subst same
    rw [firstCell?_of_fails first fails]
    split
    · simp [List.filter_map, Function.comp_def, Problem.stemsFrom]
    · rfl
  · rw [firstCell?_withText first same]
    split
    · simp [List.filter_map, Function.comp_def, Problem.stemsFrom, Ne.symm same]
    · rfl

/-- References among other processes stay. -/
theorem refersTo_withText (text : String) (source target : ProcessId) :
    RefersTo (before ++ row :: after) source target ↔
      RefersTo (before ++ row.withText text :: after) source target ∧
        source ≠ row.process ∧ target ≠ row.process := by
  have none : TableReading.firstCell? (before ++ row :: after) row.process = none :=
    firstCell?_of_fails first fails
  by_cases isSource : source = row.process
  · simp [RefersTo, isSource, none]
  · by_cases isTarget : target = row.process
    · simp [RefersTo, isTarget, none]
    · simp [RefersTo, firstCell?_withText first, isSource, isTarget, Ne.symm isSource, Ne.symm isTarget]

/-- Cycles that do not run through the process stay. -/
theorem filter_cycles_referenceGraph (text : String) :
    (referenceGraph (TableReading.ofRows (before ++ row :: after)).preconditions).cycles =
      (referenceGraph (TableReading.ofRows (before ++ row.withText text :: after)).preconditions).cycles.filter
        (row.process ∉ ·) := by
  apply Graph.cycles_of_lacking
  · intro process
    rw [mem_referenceGraph_ofRows, mem_referenceGraph_ofRows]
    by_cases same : process = row.process
    · simp [same, firstCell?_of_fails first fails]
    · simp [same, firstCell?_withText first (Ne.symm same)]
  · simpa only [joins_referenceGraph] using refersTo_withText first fails text

/-! ## The report of a repaired table -/

/-- Behind the row, what does not stem from its process stays. -/
theorem filter_problemsBehind (text : String) :
    (problemsBehind before (row.withText text) after).filter (!·.stemsFrom row.process) =
      problemsBehind before row after := by
  have stems : (fun cycle => !(Problem.cyclic cycle).stemsFrom row.process) =
      (decide <| row.process ∉ ·) := by
    funext cycle
    simp [Problem.stemsFrom]
  have cycles : (referenceGraph (checkPreconditions (before ++ row :: after)).preconditions).cycles =
      (referenceGraph
        (checkPreconditions (before ++ row.withText text :: after)).preconditions).cycles.filter
          (row.process ∉ ·) :=
    filter_cycles_referenceGraph first fails text
  rw [problemsBehind, problemsBehind, cycles]
  simp only [List.filter_append, filter_rowProblems, filter_unknownProblems first fails, List.filter_map,
    Function.comp_def, stems, PreconditionRow.process_withText]

end First

theorem Problem.stemsFrom_iff : problem.stemsFrom process ↔
    (∃ target, problem = .unknown process target) ∨
      ∃ cycle, problem = .cyclic cycle ∧ process ∈ cycle := by
  cases problem <;> simp [Problem.stemsFrom]

/-- Texts that do not parse are problems of single rows. -/
theorem mem_rowProblems_of_malformed
    (reported : .malformed process error ∈ (checkPreconditions rows).problems) :
    .malformed process error ∈ rowProblems [] rows := by
  rw [problems_checkPreconditions, List.mem_append, List.mem_append] at reported
  rcases reported with (ofRow | ofReference) | ofCycle
  · exact ofRow
  · obtain ⟨_, _, same⟩ := eq_unknown_of_mem ofReference
    cases same
  · obtain ⟨_, _, same⟩ := List.mem_map.mp ofCycle
    cases same

/-- A text that parses, in the place of one that does not, takes the one problem from the report and
leaves the others in their order. What it adds are references from the process to processes without a
row, and cycles through the process. -/
theorem checkPreconditions_repaired (first : row.process ∉ before.map PreconditionRow.process)
    (reported : .malformed row.process error ∈ (checkPreconditions (before ++ row :: after)).problems)
    (parses : Precondition.parse? row.process text = .ok tree) :
    ∃ front back,
      (checkPreconditions (before ++ row :: after)).problems =
        front ++ .malformed row.process error :: back ∧
      (checkPreconditions (before ++ row.withText text :: after)).problems.filter
        (!·.stemsFrom row.process) = front ++ back ∧
      (front ++ back).Sublist (checkPreconditions (before ++ row.withText text :: after)).problems ∧
      (∀ error, .malformed row.process error ∉
        (checkPreconditions (before ++ row.withText text :: after)).problems) ∧
      ∀ problem ∈ (checkPreconditions (before ++ row.withText text :: after)).problems,
        problem ∈ front ++ back ∨ (∃ target, problem = .unknown row.process target) ∨
          ∃ cycle, problem = .cyclic cycle ∧ row.process ∈ cycle := by
  have fails := parse?_of_malformed first (mem_rowProblems_of_malformed reported)
  have broken : row.malformed? = some (.malformed row.process error) := by
    rw [PreconditionRow.malformed?, fails]
  have repaired : (row.withText text).malformed? = none := by
    rw [PreconditionRow.malformed?, PreconditionRow.withText, parses]
  have firstToo : (row.withText text).process ∉ before.map PreconditionRow.process := first
  have kept : (checkPreconditions (before ++ row.withText text :: after)).problems.filter
      (!·.stemsFrom row.process) = rowProblems [] before ++ problemsBehind before row after := by
    rw [problems_of_first firstToo, repaired, Option.toList_none, List.append_nil, List.filter_append,
      filter_rowProblems, filter_problemsBehind first fails]
  refine ⟨_, _, ?_, kept, ?_, ?_, ?_⟩
  · rw [problems_of_first first, broken, Option.toList_some, List.append_assoc, List.singleton_append]
  · rw [← kept]
    exact List.filter_sublist
  · intro other reportedStill
    have failsStill := parse?_of_malformed firstToo (mem_rowProblems_of_malformed reportedStill)
    rw [PreconditionRow.withText, parses] at failsStill
    cases failsStill
  · intro problem member
    rw [← kept, List.mem_filter, ← Problem.stemsFrom_iff]
    cases problem.stemsFrom row.process <;> simp [member]

/-- The row of the text that does not parse, with a text of two references in its place. -/
def repairedRow : PreconditionRow := brokenRow.withText "\\exec(P1) && \\exec(P8)"

/-- The new reference to no row comes from the repaired row, and the new circle runs through it. The
old ones stay. -/
theorem checkPreconditions_repaired_circleRows :
    (checkPreconditions (circleRows.take 1 ++ repairedRow :: circleRows.drop 2)).problems =
      [.unknown ⟨"P2"⟩ ⟨"P9"⟩, .unknown ⟨"P3"⟩ ⟨"P8"⟩, .cyclic [⟨"P1"⟩, ⟨"P2"⟩],
        .cyclic [⟨"P1"⟩, ⟨"P3"⟩]] ∧
    ∃ front back,
      (checkPreconditions circleRows).problems =
        front ++ .malformed ⟨"P3"⟩ ⟨"\\exec(", 6, .process⟩ :: back ∧
      (front ++ back).Sublist
        (checkPreconditions (circleRows.take 1 ++ repairedRow :: circleRows.drop 2)).problems := by
  refine ⟨by cbv, ?_⟩
  have first : brokenRow.process ∉ (circleRows.take 1).map PreconditionRow.process := by decide
  have problems : (checkPreconditions (circleRows.take 1 ++ brokenRow :: circleRows.drop 2)).problems =
      [.malformed brokenRow.process ⟨"\\exec(", 6, .process⟩, .unknown ⟨"P2"⟩ ⟨"P9"⟩,
        .cyclic [⟨"P1"⟩, ⟨"P2"⟩]] := by cbv
  have reported : .malformed brokenRow.process ⟨"\\exec(", 6, .process⟩ ∈
      (checkPreconditions (circleRows.take 1 ++ brokenRow :: circleRows.drop 2)).problems :=
    problems ▸ List.mem_cons_self ..
  obtain ⟨tree, parses⟩ : ∃ tree, Precondition.parse? brokenRow.process repairedRow.precondition =
      .ok tree := ⟨.all [.executable ⟨"P1"⟩, .executable ⟨"P8"⟩], by cbv⟩
  obtain ⟨front, back, broken, _, kept, _⟩ := checkPreconditions_repaired first reported parses
  exact ⟨front, back, broken, kept⟩

end ProcessFlow
