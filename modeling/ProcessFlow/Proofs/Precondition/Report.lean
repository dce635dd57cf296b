import ProcessFlow.Proofs.Graph.Enumeration
import ProcessFlow.Proofs.Precondition.Table

/-! # What the report of a table says

The report gives the preconditions of first rows, and three lists of problems one after the other:
those of single rows in the order of the rows, the references to processes without a row, and the
cycles of references. A row that repeats a process is reported in its place and leaves all else as it
is. Among distinct processes the order of the rows shows in the first list only.
-/

namespace ProcessFlow

/-! ## Processes asked for -/

namespace Precondition

mutual

/-- The processes whose execution a precondition asks for, from left to right. -/
def askedFor : Precondition → List ProcessId
  | .executable target => [target]
  | .all children | .any children => askedForByAll children
  | .not child => child.askedFor
  | .always | .feedbackCompleted _ | .allFeedbackCompleted _ => []

/-- The processes whose execution preconditions ask for, one precondition after the other. -/
def askedForByAll : List Precondition → List ProcessId
  | [] => []
  | child :: rest => child.askedFor ++ askedForByAll rest

end

theorem askedForByAll_append (left right : List Precondition) :
    askedForByAll (left ++ right) = askedForByAll left ++ askedForByAll right := by
  induction left with
  | nil => rfl
  | cons child rest ih => rw [List.cons_append, askedForByAll, askedForByAll, ih, List.append_assoc]

/-- What is picked from the nodes of a walk comes from left to right, if a node comes before its
children. -/
theorem filterMap_walkStack {target? : Precondition → Option ProcessId}
    (own : ∀ node, node.askedFor = (target? node).toList ++ askedForByAll node.children)
    (stack : List Precondition) : (walkStack stack).filterMap target? = askedForByAll stack := by
  fun_induction walkStack stack with
  | case1 => rfl
  | case2 node stack ih =>
    rw [List.filterMap_cons, ih, askedForByAll_append, askedForByAll, own]
    cases target? node <;> rfl

/-- The walk meets the processes asked for from left to right. -/
theorem executableTargets_eq (tree : Precondition) : tree.executableTargets = tree.askedFor := by
  rw [executableTargets, walk, filterMap_walkStack, askedForByAll, askedForByAll, List.append_nil]
  intro node
  cases node <;> simp [askedFor, askedForByAll, children]

end Precondition

/-! ## Problems of single rows -/

namespace PreconditionRow

/-- The problem of a row whose text does not parse. -/
def malformed? (row : PreconditionRow) : Option Problem :=
  match Precondition.parse? row.process row.precondition with
  | .ok _ => none
  | .error error => some (.malformed row.process error)

/-- The problem of a row behind rows of the earlier processes. -/
def problem? (earlier : List ProcessId) (row : PreconditionRow) : Option Problem :=
  if row.process ∈ earlier then some (.duplicate row.process) else row.malformed?

end PreconditionRow

/-- The problems of rows, in the order of the rows, behind rows of the earlier processes. -/
def rowProblems (earlier : List ProcessId) : List PreconditionRow → List Problem
  | [] => []
  | row :: rest => (row.problem? earlier).toList ++ rowProblems (row.process :: earlier) rest

section RowProblems

variable {rows before after : List PreconditionRow} {earlier others : List ProcessId}

theorem rowProblems_congr (same : ∀ process, process ∈ earlier ↔ process ∈ others) :
    rowProblems earlier rows = rowProblems others rows := by
  induction rows generalizing earlier others with
  | nil => rfl
  | cons row rest ih =>
    have sameNext (process : ProcessId) :
        process ∈ row.process :: earlier ↔ process ∈ row.process :: others := by
      rw [List.mem_cons, List.mem_cons, same]
    simp only [rowProblems, PreconditionRow.problem?, same, ih sameNext]

theorem rowProblems_append : rowProblems earlier (before ++ after) = rowProblems earlier before ++
    rowProblems (before.map PreconditionRow.process ++ earlier) after := by
  induction before generalizing earlier with
  | nil => rfl
  | cons row rest ih =>
    rw [List.cons_append, rowProblems, rowProblems, ih, List.append_assoc]
    congr 2
    apply rowProblems_congr
    intro process
    simp only [List.map_cons, List.cons_append, List.mem_append, List.mem_cons, or_left_comm]

/-- Among new and distinct processes, only texts that do not parse are problems. -/
theorem rowProblems_of_distinct (distinct : (rows.map PreconditionRow.process).Nodup)
    (new : ∀ row ∈ rows, row.process ∉ earlier) :
    rowProblems earlier rows = rows.filterMap PreconditionRow.malformed? := by
  induction rows generalizing earlier with
  | nil => rfl
  | cons row rest ih =>
    obtain ⟨apart, distinctRest⟩ := List.nodup_cons.mp distinct
    obtain ⟨newRow, newRest⟩ := List.forall_mem_cons.mp new
    have newNext : ∀ other ∈ rest, other.process ∉ row.process :: earlier := by
      intro other member
      rw [List.mem_cons, not_or]
      refine ⟨fun same => apart ?_, newRest other member⟩
      rw [← same]
      exact List.mem_map_of_mem member
    rw [rowProblems, PreconditionRow.problem?, if_neg newRow, ih distinctRest newNext,
      List.filterMap_cons]
    cases row.malformed? <;> rfl

namespace TableReading

variable {reading : TableReading} {row : PreconditionRow}

theorem problems_addRow (known : ∀ process, process ∈ reading.known ↔ process ∈ earlier) :
    (reading.addRow row).problems = reading.problems ++ (row.problem? earlier).toList := by
  by_cases isKnown : row.process ∈ reading.known
  · rw [addRow, if_pos isKnown, PreconditionRow.problem?, if_pos ((known _).mp isKnown)]
    rfl
  · rw [addRow_of_new isKnown, PreconditionRow.problem?, if_neg ((known _).not.mp isKnown),
      PreconditionRow.malformed?]
    cases Precondition.parse? row.process row.precondition with
    | ok tree => exact (List.append_nil _).symm
    | error error => rfl

/-- Reading a table finds the problems of its rows. -/
theorem problems_ofRows (rows : List PreconditionRow) : (ofRows rows).problems = rowProblems [] rows := by
  have onto (reading : TableReading) (earlier : List ProcessId)
      (known : ∀ process, process ∈ reading.known ↔ process ∈ earlier) :
      (rows.foldl addRow reading).problems = reading.problems ++ rowProblems earlier rows := by
    induction rows generalizing reading earlier with
    | nil => rw [rowProblems, List.append_nil, List.foldl_nil]
    | cons row rest ih =>
      have knownNext (process : ProcessId) :
          process ∈ (reading.addRow row).known ↔ process ∈ row.process :: earlier := by
        rw [mem_known_addRow, known, List.mem_cons]
      rw [List.foldl_cons, ih _ _ knownNext, problems_addRow known, rowProblems, List.append_assoc]
  have nothing (process : ProcessId) : process ∈ initial.known ↔ process ∈ ([] : List ProcessId) := by
    simp [initial]
  exact onto initial [] nothing

end TableReading

end RowProblems

/-! ## References to processes without a row -/

/-- The references to processes without a row, process by process and from left to right. -/
def unknownProblems (rows : List PreconditionRow) : List Problem :=
  (OrderedSet.ofList (rows.map PreconditionRow.process)).toList.flatMap fun process =>
    match TableReading.firstCell? rows process with
    | some tree =>
      (tree.askedFor.filter (· ∉ rows.map PreconditionRow.process)).map (.unknown process)
    | none => []

namespace TableReading

variable {rows others : List PreconditionRow} {process target : ProcessId} {tree : Precondition}

theorem mem_of_firstCell? (found : firstCell? rows process = some tree) :
    process ∈ rows.map PreconditionRow.process := by
  obtain ⟨row, isFirst, _⟩ := Option.bind_eq_some_iff.mp found
  have same : row.process = process := by simpa using List.find?_some isFirst
  exact same ▸ List.mem_map_of_mem (List.mem_of_find?_eq_some isFirst)

theorem unknownReferences_ofRows (rows : List PreconditionRow) :
    (ofRows rows).unknownReferences = unknownProblems rows := by
  have within (process : ProcessId) (member : process ∈ (ofRows rows).preconditions) :
      process ∈ (OrderedSet.ofList (rows.map PreconditionRow.process)).toList := by
    obtain ⟨tree, entry⟩ := OrderedMap.mem_iff_exists.mp member
    rw [← OrderedMap.get?_eq_some_iff, get?_preconditions_ofRows] at entry
    exact OrderedSet.mem_ofList.mpr (mem_of_firstCell? entry)
  have order := (OrderedSet.ofList (rows.map PreconditionRow.process)).ascending
  rw [unknownReferences, OrderedMap.entries_eq_filterMap order within, unknownProblems,
    List.filterMap_eq_flatMap_toList, List.flatMap_assoc]
  congr 1
  funext process
  rw [get?_preconditions_ofRows]
  cases firstCell? rows process with
  | none => rfl
  | some tree => simp [Precondition.executableTargets_eq, mem_known_ofRows]

/-- Where first rows hold the same preconditions, the readings do. -/
theorem preconditions_congr
    (same : ∀ process, firstCell? rows process = firstCell? others process) :
    (ofRows rows).preconditions = (ofRows others).preconditions := by
  apply OrderedMap.ext_get?
  intro process
  rw [get?_preconditions_ofRows, get?_preconditions_ofRows, same]

end TableReading

/-- References depend on the preconditions of first rows, and on the processes as a set. -/
theorem unknownProblems_congr {rows others : List PreconditionRow}
    (cells : ∀ process, TableReading.firstCell? rows process =
      TableReading.firstCell? others process)
    (known : ∀ process, process ∈ rows.map PreconditionRow.process ↔
      process ∈ others.map PreconditionRow.process) :
    unknownProblems rows = unknownProblems others := by
  have processes : OrderedSet.ofList (rows.map PreconditionRow.process) =
      .ofList (others.map PreconditionRow.process) := by
    ext process
    rw [OrderedSet.mem_ofList, OrderedSet.mem_ofList, known]
  simp only [unknownProblems, processes, cells, known]

/-! ## Cycles of references -/

/-- The precondition in the first row of the one process asks for the execution of the other, which
has a precondition in its first row too. -/
def RefersTo (rows : List PreconditionRow) (process target : ProcessId) : Prop :=
  (∃ tree, TableReading.firstCell? rows process = some tree ∧ tree.Mentions target) ∧
    ∃ tree, TableReading.firstCell? rows target = some tree

/-- Distinct processes, each referring to the next and the last to the first, from the least one
on. -/
structure IsReferenceCycle (rows : List PreconditionRow) (cycle : List ProcessId) : Prop where
  solid : cycle ≠ []
  distinct : cycle.Nodup
  joined : cycle.IsChain (RefersTo rows)
  closed : ∀ last ∈ cycle.getLast?, ∀ first ∈ cycle.head?, RefersTo rows last first
  least : ∀ first ∈ cycle.head?, ∀ process ∈ cycle, first ≤ process

theorem mem_referenceGraph_ofRows {rows : List PreconditionRow} {process : ProcessId} :
    process ∈ referenceGraph (TableReading.ofRows rows).preconditions ↔
      ∃ tree, TableReading.firstCell? rows process = some tree := by
  simp only [mem_referenceGraph, OrderedMap.mem_iff_exists, ← OrderedMap.get?_eq_some_iff,
    TableReading.get?_preconditions_ofRows]

theorem joins_referenceGraph (rows : List PreconditionRow) :
    (referenceGraph (TableReading.ofRows rows).preconditions).Joins = RefersTo rows := by
  funext process target
  rw [Graph.Joins, mem_edges_referenceGraph, mem_referenceGraph_ofRows, mem_referenceGraph_ofRows,
    TableReading.get?_preconditions_ofRows, RefersTo, eq_iff_iff]
  apply and_congr_right
  rintro ⟨tree, found, _⟩
  exact and_iff_right ⟨tree, found⟩

theorem mem_cycles_referenceGraph {rows : List PreconditionRow} {cycle : List ProcessId} :
    cycle ∈ (referenceGraph (TableReading.ofRows rows).preconditions).cycles ↔
      IsReferenceCycle rows cycle := by
  rw [Graph.mem_cycles_iff]
  have joins := joins_referenceGraph rows
  constructor
  · rintro ⟨⟨solid, distinct, joined, closed⟩, least⟩
    rw [joins] at joined closed
    exact ⟨solid, distinct, joined, closed, least⟩
  · rintro ⟨solid, distinct, joined, closed, least⟩
    rw [← joins] at joined closed
    exact ⟨⟨solid, distinct, joined, closed⟩, least⟩

/-! ## The report -/

/-- What the report of a table holds: the precondition in the first row of each process; the problems
of single rows, the references to processes without a row, and each cycle of references once, short
ones first and those of one length process by process. -/
structure Reports (rows : List PreconditionRow) (report : CheckReport) : Prop where
  preconditions : ∀ process,
    report.preconditions.get? process = TableReading.firstCell? rows process
  problems : ∃ cycles : List (List ProcessId),
    report.problems = rowProblems [] rows ++ unknownProblems rows ++ cycles.map .cyclic ∧
    (cycles.Pairwise fun left right =>
      left.length < right.length ∨ left.length = right.length ∧ left < right) ∧
    ∀ cycle, cycle ∈ cycles ↔ IsReferenceCycle rows cycle

variable {rows others : List PreconditionRow} {report : CheckReport}

theorem problems_checkPreconditions (rows : List PreconditionRow) :
    (checkPreconditions rows).problems = rowProblems [] rows ++ unknownProblems rows ++
      (referenceGraph (checkPreconditions rows).preconditions).cycles.map .cyclic := by
  rw [checkPreconditions, TableReading.problems_ofRows, TableReading.unknownReferences_ofRows]

theorem reports_checkPreconditions (rows : List PreconditionRow) :
    Reports rows (checkPreconditions rows) where
  preconditions _ := TableReading.get?_preconditions_ofRows
  problems := ⟨_, problems_checkPreconditions rows, Graph.cycles_ascending _,
    fun _ => mem_cycles_referenceGraph⟩

/-- There is one report of a table. -/
theorem Reports.eq {other : CheckReport} (reports : Reports rows report)
    (reportsOther : Reports rows other) : report = other := by
  obtain ⟨cells, cycles, problems, order, members⟩ := reports
  obtain ⟨otherCells, otherCycles, otherProblems, otherOrder, otherMembers⟩ := reportsOther
  have preconditions : report.preconditions = other.preconditions := by
    apply OrderedMap.ext_get?
    intro process
    rw [cells, otherCells]
  have sameCycles : cycles = otherCycles :=
    eq_of_pairwise Graph.cycleOrder_asymm order otherOrder fun cycle =>
      (members cycle).trans (otherMembers cycle).symm
  rw [← sameCycles, ← problems] at otherProblems
  cases report
  cases other
  rw [CheckReport.mk.injEq]
  exact ⟨preconditions, otherProblems.symm⟩

/-! ## Rows that repeat a process -/

section Repetition

variable {before after : List PreconditionRow} {row : PreconditionRow}

/-- A row that repeats a process is not the first one of it. -/
theorem firstCell?_of_repeated (repeated : row.process ∈ before.map PreconditionRow.process)
    (process : ProcessId) : TableReading.firstCell? (before ++ row :: after) process =
      TableReading.firstCell? (before ++ after) process := by
  rw [TableReading.firstCell?, TableReading.firstCell?, List.find?_append, List.find?_append]
  by_cases same : row.process = process
  · obtain ⟨first, isFirst⟩ := TableReading.exists_first (same ▸ repeated)
    rw [isFirst, Option.some_or, Option.some_or]
  · rw [List.find?_cons_of_neg (by simpa using same)]

/-- A row that repeats a process adds its own problem in its place. -/
theorem checkPreconditions_repeated (after : List PreconditionRow)
    (repeated : row.process ∈ before.map PreconditionRow.process) :
    (checkPreconditions (before ++ row :: after)).preconditions =
      (checkPreconditions (before ++ after)).preconditions ∧
    ∃ rest, (checkPreconditions (before ++ after)).problems = rowProblems [] before ++ rest ∧
      (checkPreconditions (before ++ row :: after)).problems =
        rowProblems [] before ++ .duplicate row.process :: rest := by
  have cells : ∀ process, TableReading.firstCell? (before ++ row :: after) process =
      TableReading.firstCell? (before ++ after) process := firstCell?_of_repeated repeated
  have preconditions : (checkPreconditions (before ++ row :: after)).preconditions =
      (checkPreconditions (before ++ after)).preconditions := TableReading.preconditions_congr cells
  have known (process : ProcessId) :
      process ∈ (before ++ row :: after).map PreconditionRow.process ↔
        process ∈ (before ++ after).map PreconditionRow.process := by
    simp only [List.map_append, List.map_cons, List.mem_append, List.mem_cons]
    constructor
    · rintro (inBefore | rfl | inAfter)
      · exact .inl inBefore
      · exact .inl repeated
      · exact .inr inAfter
    · exact Or.imp_right .inr
  have own (earlier : List ProcessId) (isEarlier : row.process ∈ earlier) :
      rowProblems earlier (row :: after) = .duplicate row.process :: rowProblems earlier after := by
    have same (process : ProcessId) : process ∈ row.process :: earlier ↔ process ∈ earlier :=
      List.mem_cons.trans (or_iff_right_of_imp fun same => same ▸ isEarlier)
    rw [rowProblems, PreconditionRow.problem?, if_pos isEarlier, rowProblems_congr same]
    rfl
  have shape (tail : List PreconditionRow) : (checkPreconditions (before ++ tail)).problems =
      rowProblems [] before ++ (rowProblems (before.map PreconditionRow.process ++ []) tail ++
        (unknownProblems (before ++ tail) ++
          (referenceGraph (checkPreconditions (before ++ tail)).preconditions).cycles.map .cyclic)) := by
    rw [problems_checkPreconditions, rowProblems_append, List.append_assoc, List.append_assoc]
  refine ⟨preconditions, _, shape after, ?_⟩
  rw [shape (row :: after), own _ (List.mem_append_left _ repeated),
    unknownProblems_congr cells known, preconditions, List.cons_append]

end Repetition

/-! ## Rows in another order -/

/-- Among distinct processes, the order of rows does not matter to the preconditions. -/
theorem firstCell?_of_perm (shuffled : rows.Perm others)
    (distinct : (rows.map PreconditionRow.process).Nodup) (process : ProcessId) :
    TableReading.firstCell? rows process = TableReading.firstCell? others process := by
  have distinctOthers := (shuffled.map PreconditionRow.process).nodup_iff.mp distinct
  apply Option.ext
  intro tree
  rw [TableReading.firstCell?_eq_some_iff distinct,
    TableReading.firstCell?_eq_some_iff distinctOthers]
  simp only [shuffled.mem_iff]

theorem eq_malformed_of_mem {problem : Problem}
    (member : problem ∈ rows.filterMap PreconditionRow.malformed?) :
    ∃ process error, problem = .malformed process error := by
  obtain ⟨row, _, isProblem⟩ := List.mem_filterMap.mp member
  rw [PreconditionRow.malformed?] at isProblem
  split at isProblem
  · cases isProblem
  · exact ⟨_, _, (Option.some.inj isProblem).symm⟩

theorem eq_unknown_of_mem {problem : Problem} (member : problem ∈ unknownProblems rows) :
    ∃ process target, problem = .unknown process target := by
  obtain ⟨process, _, isProblem⟩ := List.mem_flatMap.mp member
  split at isProblem
  · obtain ⟨target, _, rfl⟩ := List.mem_map.mp isProblem
    exact ⟨process, target, rfl⟩
  · cases isProblem

/-- Among distinct processes, another order of the rows is another order of the texts that do not
parse, and nothing else. -/
theorem checkPreconditions_of_perm (shuffled : rows.Perm others)
    (distinct : (rows.map PreconditionRow.process).Nodup) :
    (checkPreconditions others).preconditions = (checkPreconditions rows).preconditions ∧
    ∃ malformed malformedOthers unknown : List Problem, ∃ cycles : List (List ProcessId),
      (checkPreconditions rows).problems = malformed ++ unknown ++ cycles.map .cyclic ∧
      (checkPreconditions others).problems = malformedOthers ++ unknown ++ cycles.map .cyclic ∧
      malformed.Perm malformedOthers ∧
      (∀ problem ∈ malformed, ∃ process error, problem = .malformed process error) ∧
      ∀ problem ∈ unknown, ∃ process target, problem = .unknown process target := by
  have cells := firstCell?_of_perm shuffled distinct
  have known (process : ProcessId) : process ∈ rows.map PreconditionRow.process ↔
      process ∈ others.map PreconditionRow.process := (shuffled.map _).mem_iff
  have distinctOthers := (shuffled.map PreconditionRow.process).nodup_iff.mp distinct
  have preconditions : (checkPreconditions rows).preconditions =
      (checkPreconditions others).preconditions := TableReading.preconditions_congr cells
  have problems := problems_checkPreconditions rows
  have problemsOthers := problems_checkPreconditions others
  rw [rowProblems_of_distinct distinct (fun _ _ => List.not_mem_nil)] at problems
  rw [rowProblems_of_distinct distinctOthers (fun _ _ => List.not_mem_nil),
    ← unknownProblems_congr cells known, ← preconditions] at problemsOthers
  exact ⟨preconditions.symm, _, _, _, _, problems, problemsOthers, shuffled.filterMap _,
    fun _ => eq_malformed_of_mem, fun _ => eq_unknown_of_mem⟩

/-- The report of a table is the one that says what is to be reported. A row that repeats a process
adds its own problem and changes nothing else. Among distinct processes, another order of the rows is
another order of the texts that do not parse, and nothing else. -/
theorem checkPreconditions_report (rows : List PreconditionRow) :
    (∀ report, report = checkPreconditions rows ↔ Reports rows report) ∧
    (∀ before row after, rows = before ++ row :: after →
      row.process ∈ before.map PreconditionRow.process →
      (checkPreconditions rows).preconditions =
        (checkPreconditions (before ++ after)).preconditions ∧
      ∃ rest, (checkPreconditions (before ++ after)).problems = rowProblems [] before ++ rest ∧
        (checkPreconditions rows).problems =
          rowProblems [] before ++ .duplicate row.process :: rest) ∧
    ∀ others, rows.Perm others → (rows.map PreconditionRow.process).Nodup →
      (checkPreconditions others).preconditions = (checkPreconditions rows).preconditions ∧
      ∃ malformed malformedOthers unknown : List Problem, ∃ cycles : List (List ProcessId),
        (checkPreconditions rows).problems = malformed ++ unknown ++ cycles.map .cyclic ∧
        (checkPreconditions others).problems = malformedOthers ++ unknown ++ cycles.map .cyclic ∧
        malformed.Perm malformedOthers ∧
        (∀ problem ∈ malformed, ∃ process error, problem = .malformed process error) ∧
        ∀ problem ∈ unknown, ∃ process target, problem = .unknown process target := by
  refine ⟨fun report => ⟨?_, fun reports => reports.eq (reports_checkPreconditions rows)⟩, ?_, ?_⟩
  · rintro rfl
    exact reports_checkPreconditions rows
  · rintro before row after rfl repeated
    exact checkPreconditions_repeated after repeated
  · exact fun _ shuffled distinct => checkPreconditions_of_perm shuffled distinct

/-- A text that does not parse, and references to no row and in a circle. -/
def brokenRow : PreconditionRow := ⟨⟨"P3"⟩, "\\exec("⟩
def circleRows : List PreconditionRow :=
  [⟨⟨"P2"⟩, "\\exec(P1) || \\exec(P9)"⟩, brokenRow, ⟨⟨"P1"⟩, "!(\\exec(P2) && \\exec(P3))"⟩]

/-- A row that repeats a process of the table. -/
def repeatedRow : PreconditionRow := ⟨⟨"P2"⟩, ""⟩

/-- The row that repeats a process comes behind the one whose text does not parse, and this one still
counts as a row of its process. -/
theorem checkPreconditions_report_circleRows :
    (checkPreconditions (circleRows ++ [repeatedRow])).problems =
      [.malformed ⟨"P3"⟩ ⟨"\\exec(", 6, .process⟩, .duplicate ⟨"P2"⟩, .unknown ⟨"P2"⟩ ⟨"P9"⟩,
        .cyclic [⟨"P1"⟩, ⟨"P2"⟩]] ∧
    Reports circleRows (checkPreconditions circleRows) ∧
    (checkPreconditions (circleRows ++ [repeatedRow])).preconditions =
      (checkPreconditions (circleRows ++ [])).preconditions ∧
    (checkPreconditions circleRows.reverse).preconditions =
      (checkPreconditions circleRows).preconditions := by
  obtain ⟨reports, _, shuffled⟩ := checkPreconditions_report circleRows
  obtain ⟨_, repetition, _⟩ := checkPreconditions_report (circleRows ++ [repeatedRow])
  refine ⟨by cbv, (reports _).mp rfl, ?_, ?_⟩
  · exact (repetition circleRows repeatedRow [] rfl (by decide)).1
  · exact (shuffled _ (List.reverse_perm _).symm (by decide)).1

end ProcessFlow
