import Mathlib
import ProcessFlow.Precondition.Table
import ProcessFlow.Proofs.Graph.Acyclic
import ProcessFlow.Proofs.Graph.Topological
import ProcessFlow.Proofs.Precondition.Nodes

/-! # Tables without problems

A table is clean exactly if its rows name distinct processes, every text parses, every reference leads
to a process of the table, and no process waits on itself, directly or through others. The processes
of a clean table can be put in an order in which each stands before those that it waits on.
-/

namespace ProcessFlow

open Relation

namespace Precondition

/-- Somewhere in the precondition, however deep, the execution of a process is asked for. -/
inductive Mentions (target : ProcessId) : Precondition → Prop
  | executable : Mentions target (.executable target)
  | all {child : Precondition} {children : List Precondition} (member : child ∈ children)
    (below : Mentions target child) : Mentions target (.all children)
  | any {child : Precondition} {children : List Precondition} (member : child ∈ children)
    (below : Mentions target child) : Mentions target (.any children)
  | not {child : Precondition} (below : Mentions target child) : Mentions target (.not child)

variable {tree : Precondition} {target : ProcessId}

theorem mem_executableTargets_iff_walk :
    target ∈ tree.executableTargets ↔ .executable target ∈ tree.walk := by
  rw [executableTargets, List.mem_filterMap]
  constructor
  · rintro ⟨node, visited, found⟩
    cases node with
    | executable other =>
      cases found
      exact visited
    | _ => cases found
  · intro visited
    exact ⟨_, visited, rfl⟩

/-- The targets of the walk are the processes asked for. -/
theorem mem_executableTargets : target ∈ tree.executableTargets ↔ tree.Mentions target := by
  rw [mem_executableTargets_iff_walk]
  induction tree using children_induction with
  | step tree ih =>
    rw [mem_walk]
    constructor
    · rintro (rfl | ⟨child, isChild, visited⟩)
      · exact .executable
      · have below := (ih child isChild).mp visited
        cases tree with
        | all children => exact .all isChild below
        | any children => exact .any isChild below
        | not inner =>
          rw [List.mem_singleton.mp isChild] at below
          exact .not below
        | _ => cases isChild
    · intro mentions
      cases mentions with
      | executable => exact .inl rfl
      | all member below => exact .inr ⟨_, member, (ih _ member).mpr below⟩
      | any member below => exact .inr ⟨_, member, (ih _ member).mpr below⟩
      | not below =>
        exact .inr ⟨_, List.mem_singleton_self _, (ih _ (List.mem_singleton_self _)).mpr below⟩

end Precondition

/-! ## Reading the rows -/

/-- The precondition in the cell of a row. -/
def PreconditionRow.Holds (row : PreconditionRow) (tree : Precondition) : Prop :=
  Precondition.parse? row.process row.precondition = .ok tree

namespace TableReading

variable {rows : List PreconditionRow} {reading : TableReading} {process : ProcessId}
  {tree : Precondition}

/-- How a row of a new process is taken in, by what its text parses to. -/
theorem addRow_of_new {row : PreconditionRow} (new : row.process ∉ reading.known) :
    reading.addRow row = match Precondition.parse? row.process row.precondition with
      | .ok precondition =>
        ⟨reading.known.insert row.process,
          reading.preconditions.insert row.process precondition, reading.problems⟩
      | .error error =>
        ⟨reading.known.insert row.process, reading.preconditions,
          reading.problems ++ [.malformed row.process error]⟩ := if_neg new

theorem mem_known_addRow {row : PreconditionRow} :
    process ∈ (reading.addRow row).known ↔ process = row.process ∨ process ∈ reading.known := by
  by_cases known : row.process ∈ reading.known
  · rw [addRow, if_pos known]
    constructor
    · exact .inr
    · rintro (rfl | earlier)
      · exact known
      · exact earlier
  · rw [addRow_of_new known]
    split <;> exact OrderedSet.mem_insert

/-- The processes known are those of the rows. -/
theorem mem_known_ofRows :
    process ∈ (ofRows rows).known ↔ process ∈ rows.map PreconditionRow.process := by
  have onto (reading : TableReading) : process ∈ (rows.foldl addRow reading).known ↔
      process ∈ rows.map PreconditionRow.process ∨ process ∈ reading.known := by
    induction rows generalizing reading with
    | nil => simp
    | cons row rest ih =>
      rw [List.foldl_cons, ih, mem_known_addRow, List.map_cons, List.mem_cons, or_left_comm,
        or_assoc]
  rw [ofRows, onto initial]
  exact or_iff_left OrderedSet.not_mem_empty

/-- A row adds no problem exactly if its process is new and its text parses. -/
theorem problems_addRow_eq_nil {row : PreconditionRow} : (reading.addRow row).problems = [] ↔
    reading.problems = [] ∧ row.process ∉ reading.known ∧ ∃ tree, row.Holds tree := by
  unfold PreconditionRow.Holds
  by_cases known : row.process ∈ reading.known
  · rw [addRow, if_pos known]
    simp [known]
  · rw [addRow_of_new known]
    split
    · rename_i tree parsed
      simp [known, parsed]
    · rename_i error parsed
      simp [parsed]

/-- Reading finds no problem exactly if the processes are distinct and every text parses. -/
theorem problems_ofRows_eq_nil : (ofRows rows).problems = [] ↔
    (rows.map PreconditionRow.process).Nodup ∧ ∀ row ∈ rows, ∃ tree, row.Holds tree := by
  -- Rows that follow a reading must also be new to it.
  have onto (reading : TableReading) : (rows.foldl addRow reading).problems = [] ↔
      reading.problems = [] ∧ (rows.map PreconditionRow.process).Nodup ∧
        ∀ row ∈ rows, row.process ∉ reading.known ∧ ∃ tree, row.Holds tree := by
    induction rows generalizing reading with
    | nil => simp
    | cons row rest ih =>
      have fresh : row.process ∉ rest.map PreconditionRow.process ↔
          ∀ other ∈ rest, other.process ≠ row.process := by simp
      simp only [List.foldl_cons, ih, problems_addRow_eq_nil, mem_known_addRow, not_or,
        List.map_cons, List.nodup_cons, fresh, List.forall_mem_cons]
      constructor
      · rintro ⟨⟨none, new, parses⟩, distinct, others⟩
        exact ⟨none, ⟨fun other member => (others other member).1.1, distinct⟩, ⟨new, parses⟩,
          fun other member => ⟨(others other member).1.2, (others other member).2⟩⟩
      · rintro ⟨none, ⟨apart, distinct⟩, ⟨new, parses⟩, others⟩
        exact ⟨⟨none, new, parses⟩, distinct, fun other member =>
          ⟨⟨apart other member, (others other member).1⟩, (others other member).2⟩⟩
  rw [ofRows, onto initial]
  simp [initial]

/-- The precondition of the first row of a process, if it parses. -/
def firstCell? (rows : List PreconditionRow) (process : ProcessId) : Option Precondition :=
  (rows.find? fun row => row.process = process).bind fun row =>
    (Precondition.parse? row.process row.precondition).toOption

/-- A process that rows name has a first row. -/
theorem exists_first (named : process ∈ rows.map PreconditionRow.process) :
    ∃ row, (rows.find? fun row => row.process = process) = some row := by
  obtain ⟨row, member, same⟩ := List.mem_map.mp named
  exact Option.isSome_iff_exists.mp (List.find?_isSome.mpr ⟨row, member, decide_eq_true same⟩)

theorem get?_preconditions_addRow {row : PreconditionRow} :
    (reading.addRow row).preconditions.get? process =
      if row.process = process ∧ process ∉ reading.known then
        ((Precondition.parse? row.process row.precondition).toOption).or
          (reading.preconditions.get? process)
      else reading.preconditions.get? process := by
  by_cases known : row.process ∈ reading.known
  · rw [addRow, if_pos known, if_neg]
    rintro ⟨rfl, new⟩
    exact new known
  · rw [addRow_of_new known]
    by_cases same : row.process = process
    · subst same
      rw [if_pos ⟨rfl, known⟩]
      split
      · rename_i tree parsed
        rw [OrderedMap.get?_insert, if_pos rfl, parsed]
        rfl
      · rename_i error parsed
        rw [parsed]
        rfl
    · rw [if_neg fun both => same both.1]
      split
      · rw [OrderedMap.get?_insert, if_neg (Ne.symm same)]
      · rfl

/-- The precondition of a process is that of its first row. -/
theorem get?_preconditions_ofRows :
    (ofRows rows).preconditions.get? process = firstCell? rows process := by
  -- A process that a reading knows keeps its precondition, or its lack of one.
  have onto (reading : TableReading) :
      (rows.foldl addRow reading).preconditions.get? process =
        if process ∈ reading.known then reading.preconditions.get? process
        else (firstCell? rows process).or (reading.preconditions.get? process) := by
    induction rows generalizing reading with
    | nil => simp [firstCell?]
    | cons row rest ih =>
      rw [List.foldl_cons, ih, get?_preconditions_addRow]
      by_cases known : process ∈ reading.known
      · simp [mem_known_addRow, known]
      · by_cases same : row.process = process
        · simp [mem_known_addRow, known, same, firstCell?]
        · simp [mem_known_addRow, known, same, Ne.symm same, firstCell?]
  have nothing : initial.preconditions.get? process = none := rfl
  have new : process ∉ initial.known := OrderedSet.not_mem_empty
  rw [ofRows, onto initial, if_neg new, nothing, Option.or_none]

/-- Among distinct processes, every row is the first of its process. -/
theorem firstCell?_eq_some_iff (distinct : (rows.map PreconditionRow.process).Nodup) :
    firstCell? rows process = some tree ↔ ∃ row ∈ rows, row.process = process ∧ row.Holds tree := by
  have parsed (row : PreconditionRow) :
      (Precondition.parse? row.process row.precondition).toOption = some tree ↔ row.Holds tree := by
    unfold PreconditionRow.Holds
    cases Precondition.parse? row.process row.precondition <;> simp [Except.toOption]
  rw [firstCell?, Option.bind_eq_some_iff]
  constructor
  · rintro ⟨row, found, holds⟩
    have same : row.process = process := by simpa using List.find?_some found
    exact ⟨row, List.mem_of_find?_eq_some found, same, (parsed row).mp holds⟩
  · rintro ⟨row, member, same, holds⟩
    obtain ⟨other, found⟩ := exists_first (List.mem_map.mpr ⟨row, member, same⟩)
    have sameOther : other.process = process := by simpa using List.find?_some found
    obtain rfl : other = row := List.inj_on_of_nodup_map distinct
      (List.mem_of_find?_eq_some found) member (sameOther.trans same.symm)
    exact ⟨other, found, (parsed other).mpr holds⟩

/-- No reference is unknown exactly if all of them lead to processes of rows. -/
theorem unknownReferences_eq_nil : reading.unknownReferences = [] ↔
    ∀ process tree, reading.preconditions.get? process = some tree →
      ∀ target, tree.Mentions target → target ∈ reading.known := by
  simp only [unknownReferences, List.flatMap_eq_nil_iff, List.map_eq_nil_iff, List.filter_eq_nil_iff,
    Prod.forall, OrderedMap.get?_eq_some_iff, Precondition.mem_executableTargets, decide_eq_true_eq,
    not_not]

end TableReading

/-! ## The graph of references -/

section References

variable {preconditions : OrderedMap ProcessId Precondition} {process target : ProcessId}

theorem mem_referenceGraph : process ∈ referenceGraph preconditions ↔ process ∈ preconditions := by
  rw [Graph.mem_iff, referenceGraph, Graph.ofLists, OrderedSet.mem_ofList, OrderedMap.mem_keys]

theorem mem_edges_referenceGraph : ⟨process, target⟩ ∈ (referenceGraph preconditions).edges ↔
    ∃ tree, preconditions.get? process = some tree ∧ tree.Mentions target := by
  simp only [referenceGraph, Graph.ofLists, OrderedSet.mem_ofList, List.mem_flatMap, List.mem_map,
    Edge.mk.injEq, OrderedMap.get?_eq_some_iff, Precondition.mem_executableTargets]
  constructor
  · rintro ⟨⟨_, tree⟩, member, _, mentions, rfl, rfl⟩
    exact ⟨tree, member, mentions⟩
  · rintro ⟨tree, member, mentions⟩
    exact ⟨⟨process, tree⟩, member, target, mentions, rfl, rfl⟩

end References

/-! ## Clean tables -/

variable {rows : List PreconditionRow} {process target : ProcessId} {tree : Precondition}

/-- The cell of the one process asks for the execution of the other. -/
def WaitsOn (rows : List PreconditionRow) (process target : ProcessId) : Prop :=
  ∃ row ∈ rows, row.process = process ∧ ∃ tree, row.Holds tree ∧ tree.Mentions target

/-- Every process has one row, and the text of each row parses. -/
structure WellFormed (rows : List PreconditionRow) : Prop where
  distinct : (rows.map PreconditionRow.process).Nodup
  parses : ∀ row ∈ rows, ∃ tree, row.Holds tree

namespace WellFormed

theorem get?_preconditions (wellFormed : WellFormed rows) :
    (TableReading.ofRows rows).preconditions.get? process = some tree ↔
      ∃ row ∈ rows, row.process = process ∧ row.Holds tree := by
  rw [TableReading.get?_preconditions_ofRows,
    TableReading.firstCell?_eq_some_iff wellFormed.distinct]

/-- In a well-formed table, all processes have preconditions. -/
theorem mem_preconditions (wellFormed : WellFormed rows) :
    process ∈ (TableReading.ofRows rows).preconditions ↔
      process ∈ rows.map PreconditionRow.process := by
  simp only [OrderedMap.mem_iff_exists, ← OrderedMap.get?_eq_some_iff,
    wellFormed.get?_preconditions, List.mem_map]
  constructor
  · rintro ⟨tree, row, member, same, _⟩
    exact ⟨row, member, same⟩
  · rintro ⟨row, member, same⟩
    obtain ⟨tree, holds⟩ := wellFormed.parses row member
    exact ⟨tree, row, member, same, holds⟩

theorem mem_edges (wellFormed : WellFormed rows) :
    ⟨process, target⟩ ∈ (referenceGraph (TableReading.ofRows rows).preconditions).edges ↔
      WaitsOn rows process target := by
  simp only [mem_edges_referenceGraph, wellFormed.get?_preconditions, WaitsOn]
  constructor
  · rintro ⟨tree, ⟨row, member, same, holds⟩, mentions⟩
    exact ⟨row, member, same, tree, holds, mentions⟩
  · rintro ⟨row, member, same, tree, holds, mentions⟩
    exact ⟨tree, ⟨row, member, same, holds⟩, mentions⟩

theorem unknownReferences_eq_nil (wellFormed : WellFormed rows) :
    (TableReading.ofRows rows).unknownReferences = [] ↔
      ∀ process target, WaitsOn rows process target →
        target ∈ rows.map PreconditionRow.process := by
  simp only [TableReading.unknownReferences_eq_nil, wellFormed.get?_preconditions,
    TableReading.mem_known_ofRows, WaitsOn]
  constructor
  · rintro known process target ⟨row, member, same, tree, holds, mentions⟩
    exact known process tree ⟨row, member, same, holds⟩ target mentions
  · rintro known process tree ⟨row, member, same, holds⟩ target mentions
    exact known process target ⟨row, member, same, tree, holds, mentions⟩

/-- If every reference leads to a row, the edges of the graph are the references. -/
theorem joins_eq (wellFormed : WellFormed rows) (known : ∀ process target,
    WaitsOn rows process target → target ∈ rows.map PreconditionRow.process) :
    (referenceGraph (TableReading.ofRows rows).preconditions).Joins = WaitsOn rows := by
  funext process target
  rw [Graph.Joins, wellFormed.mem_edges, mem_referenceGraph, mem_referenceGraph,
    wellFormed.mem_preconditions, wellFormed.mem_preconditions, eq_iff_iff]
  apply and_iff_left_of_imp
  intro waits
  have hasRow := known process target waits
  obtain ⟨row, member, same, _⟩ := waits
  exact ⟨List.mem_map.mpr ⟨row, member, same⟩, hasRow⟩

/-- The processes of the table are the nodes of the graph. -/
theorem nodes_perm (wellFormed : WellFormed rows) :
    (referenceGraph (TableReading.ofRows rows).preconditions).nodes.toList.Perm
      (rows.map PreconditionRow.process) := by
  have ascending := (referenceGraph (TableReading.ofRows rows).preconditions).nodes.ascending
  refine (List.perm_ext_iff_of_nodup (ascending.imp Std.ne_of_lt) wellFormed.distinct).mpr ?_
  intro process
  rw [← wellFormed.mem_preconditions, ← mem_referenceGraph]
  exact Iff.rfl

end WellFormed

theorem isClean_iff_nothing_found : (checkPreconditions rows).isClean = true ↔
    (TableReading.ofRows rows).problems = [] ∧ (TableReading.ofRows rows).unknownReferences = [] ∧
      (referenceGraph (TableReading.ofRows rows).preconditions).cycles = [] := by
  simp only [CheckReport.isClean, checkPreconditions, List.isEmpty_iff, List.append_eq_nil_iff,
    List.map_eq_nil_iff, and_assoc]

theorem isClean_iff : (checkPreconditions rows).isClean = true ↔
    (rows.map PreconditionRow.process).Nodup ∧
    (∀ row ∈ rows, ∃ tree, row.Holds tree) ∧
    (∀ process target, WaitsOn rows process target →
      target ∈ rows.map PreconditionRow.process) ∧
    ∀ process, ¬TransGen (WaitsOn rows) process process := by
  rw [isClean_iff_nothing_found, TableReading.problems_ofRows_eq_nil, Graph.cycles_eq_nil_iff,
    and_assoc]
  apply and_congr_right
  intro distinct
  apply and_congr_right
  intro parses
  have wellFormed : WellFormed rows := ⟨distinct, parses⟩
  rw [wellFormed.unknownReferences_eq_nil]
  apply and_congr_right
  intro known
  rw [wellFormed.joins_eq known]

/-- A table is clean exactly if its processes are distinct, every text parses, every reference leads
to a process of the table, and no process waits on itself over however many references. Then the
graph of references has a topological order, which lists every process once and before those that it
waits on. -/
theorem checkPreconditions_exact (rows : List PreconditionRow) :
    ((checkPreconditions rows).isClean = true ↔
      (rows.map PreconditionRow.process).Nodup ∧
      (∀ row ∈ rows, ∃ tree, row.Holds tree) ∧
      (∀ process target, WaitsOn rows process target →
        target ∈ rows.map PreconditionRow.process) ∧
      ∀ process, ¬TransGen (WaitsOn rows) process process) ∧
    ((checkPreconditions rows).isClean = true →
      ∃ order, (referenceGraph (checkPreconditions rows).preconditions).topologicalSort = some order ∧
        order.Perm (rows.map PreconditionRow.process) ∧
        ∀ process target, WaitsOn rows process target → [process, target].Sublist order) := by
  refine ⟨isClean_iff, fun isClean => ?_⟩
  obtain ⟨distinct, parses, known, acyclic⟩ := isClean_iff.mp isClean
  have wellFormed : WellFormed rows := ⟨distinct, parses⟩
  have joins := wellFormed.joins_eq known
  rw [← joins] at acyclic
  obtain ⟨order, sorted⟩ := Graph.exists_topologicalSort acyclic
  obtain ⟨all, before⟩ := Graph.order_of_topologicalSort sorted
  rw [joins] at before
  exact ⟨order, sorted, all.trans wellFormed.nodes_perm, before⟩

/-- Two processes, of which the first waits on the second under a negation. -/
def pairRows : List PreconditionRow :=
  [⟨⟨"P1"⟩, "!(\\complete(D) || \\exec(P2))"⟩, ⟨⟨"P2"⟩, ""⟩]

theorem checkPreconditions_exact_pairRows :
    (checkPreconditions pairRows).isClean = true ∧ WaitsOn pairRows ⟨"P1"⟩ ⟨"P2"⟩ ∧
      (¬TransGen (WaitsOn pairRows) ⟨"P1"⟩ ⟨"P1"⟩) ∧
      ∃ order, (referenceGraph (checkPreconditions pairRows).preconditions).topologicalSort =
          some order ∧
        order.Perm [⟨"P1"⟩, ⟨"P2"⟩] ∧ [⟨"P1"⟩, ⟨"P2"⟩].Sublist order := by
  obtain ⟨clean, sorts⟩ := checkPreconditions_exact pairRows
  have isClean : (checkPreconditions pairRows).isClean = true := by cbv
  have parsed : Precondition.parse? ⟨"P1"⟩ "!(\\complete(D) || \\exec(P2))" =
      .ok (.not (.any [.feedbackCompleted ⟨"D"⟩, .executable ⟨"P2"⟩])) := by cbv
  have waits : WaitsOn pairRows ⟨"P1"⟩ ⟨"P2"⟩ :=
    ⟨_, List.mem_cons_self .., rfl, _, parsed,
      .not (.any (List.mem_cons_of_mem _ (List.mem_cons_self ..)) .executable)⟩
  obtain ⟨order, sorted, all, before⟩ := sorts isClean
  exact ⟨isClean, waits, (clean.mp isClean).2.2.2 _, order, sorted, all, before _ _ waits⟩

end ProcessFlow
