import Mathlib.Data.List.Chain
import Mathlib.Data.List.Nodup
import Mathlib.Data.List.Rotate
import ProcessFlow.Graph.Basic

/-! # Simple cycles

A simple cycle is a list of distinct nodes in which each is joined to the next and the last to the
first. Every rotation of a cycle is one, so each has a writing that begins with its least node.
`closings` lists the ways to close a path by plain exhaustive search, without blocking any node but
those on the path; `mem_closings_iff` and `nodup_closings` say that it lists each of them once.
-/

namespace ProcessFlow

namespace Graph

variable {α : Type} [LT α] [DecidableEq α]

/-- Distinct nodes, each joined to the next and the last to the first. -/
structure IsCycle (graph : Graph α) (cycle : List α) : Prop where
  solid : cycle ≠ []
  distinct : cycle.Nodup
  joined : cycle.IsChain graph.Joins
  closed : ∀ last ∈ cycle.getLast?, ∀ first ∈ cycle.head?, graph.Joins last first

/-- No node is less than the first one. -/
def LeastFirst [LE α] (cycle : List α) : Prop := ∀ first ∈ cycle.head?, ∀ node ∈ cycle, first ≤ node

omit [LT α] [DecidableEq α] in
/-- Some node of a list is less than no other. -/
theorem exists_least [LE α] [Std.IsLinearOrder α] {list : List α} (solid : list ≠ []) :
    ∃ least ∈ list, ∀ node ∈ list, least ≤ node := by
  induction list with
  | nil => contradiction
  | cons head rest ih =>
    cases rest with
    | nil => exact ⟨head, by simp, by simp [Std.le_refl]⟩
    | cons other others =>
      obtain ⟨least, member, below⟩ := ih (List.cons_ne_nil other others)
      rcases (Std.le_total : head ≤ least ∨ least ≤ head) with le | ge
      · refine ⟨head, List.mem_cons_self .., fun node present => ?_⟩
        rcases List.mem_cons.mp present with rfl | later
        · exact Std.le_refl node
        · exact Std.le_trans le (below node later)
      · refine ⟨least, List.mem_cons_of_mem _ member, fun node present => ?_⟩
        rcases List.mem_cons.mp present with rfl | later
        · exact ge
        · exact below node later

/-- A cycle may be written from any of its nodes. -/
theorem IsCycle.turn {graph : Graph α} {first : α} {before after : List α}
    (cycle : graph.IsCycle (before ++ first :: after)) :
    graph.IsCycle (first :: after ++ before) := by
  obtain ⟨_, distinct, joined, closed⟩ := cycle
  obtain ⟨left, right, across⟩ := List.isChain_append.mp joined
  refine ⟨by simp, List.nodup_append_comm.mp distinct, List.isChain_append.mpr ⟨right, left, ?_⟩, ?_⟩
  · intro last isLast next isNext
    apply closed last (List.mem_getLast?_append_of_mem_getLast? isLast) next
    rw [List.head?_append, isNext]
    rfl
  · intro last isLast next isNext
    cases isNext
    cases before with
    | nil => exact closed last (by simpa using isLast) _ rfl
    | cons head before =>
      rw [List.getLast?_append_of_ne_nil _ (List.cons_ne_nil head before)] at isLast
      exact across last isLast first rfl

/-- A walk along edges stays within the graph. -/
theorem mem_of_isChain {graph : Graph α} {first : α} {rest : List α}
    (walk : (first :: rest).IsChain graph.Joins) : ∀ node ∈ rest, node ∈ graph := by
  induction rest generalizing first with
  | nil => simp
  | cons head rest ih =>
    obtain ⟨step, walk⟩ := List.isChain_cons_cons.mp walk
    intro node member
    rcases List.mem_cons.mp member with rfl | later
    · exact step.2.2
    · exact ih walk node later

section Closings

variable (next : α → List α) (start : α)

/-- The ways to go on from a path to a node and from there, through untouched nodes, to close the
path at the start. -/
def closings (untouched : OrderedSet α) (path : List α) (node : α) : List (List α) :=
  if node = start then [path]
  else if node ∈ untouched then
    (next node).flatMap fun after => closings (untouched.erase node) (path ++ [node]) after
  else []
termination_by untouched.size
decreasing_by exact OrderedSet.size_erase_lt ‹_›

variable {next start} {untouched : OrderedSet α} {path : List α} {node : α}

@[simp] theorem closings_start : closings next start untouched path start = [path] := by
  rw [closings, if_pos rfl]

theorem closings_of_mem (other : node ≠ start) (fresh : node ∈ untouched) :
    closings next start untouched path node =
      (next node).flatMap (closings next start (untouched.erase node) (path ++ [node])) := by
  rw [closings, if_neg other, if_pos fresh]

theorem closings_of_not_mem (other : node ≠ start) (touched : node ∉ untouched) :
    closings next start untouched path node = [] := by
  rw [closings, if_neg other, if_neg touched]

/-- A way to close a path is a walk of untouched nodes that ends at the start. -/
theorem mem_closings_iff (outside : start ∉ untouched) {cycle : List α} :
    cycle ∈ closings next start untouched path node ↔
      ∃ rest, cycle = path ++ rest ∧ rest.Nodup ∧ (∀ other ∈ rest, other ∈ untouched) ∧
        (rest ++ [start]).head? = some node ∧
        (rest ++ [start]).IsChain (fun source target => target ∈ next source) := by
  fun_induction closings next start untouched path node with
  | case1 untouched path =>
    constructor
    · intro member
      exact ⟨[], by simpa using member, .nil, by simp, rfl, .singleton _⟩
    · rintro ⟨rest, rfl, _, inside, first, _⟩
      cases rest with
      | nil => simp
      | cons head rest =>
        cases first
        exact absurd (inside start (List.mem_cons_self ..)) outside
  | case2 untouched path node other fresh ih =>
    have outside' : start ∉ untouched.erase node :=
      fun member => outside (OrderedSet.mem_erase.mp member).1
    rw [List.mem_flatMap]
    constructor
    · rintro ⟨after, step, member⟩
      obtain ⟨rest, rfl, distinct, inside, first, walk⟩ := (ih after outside').mp member
      refine ⟨node :: rest, by simp, List.nodup_cons.mpr ⟨?_, distinct⟩, ?_, rfl, ?_⟩
      · intro repeated
        exact (OrderedSet.mem_erase.mp (inside node repeated)).2 rfl
      · intro target member
        rcases List.mem_cons.mp member with rfl | later
        · exact fresh
        · exact (OrderedSet.mem_erase.mp (inside target later)).1
      · refine List.isChain_cons.mpr ⟨fun target head => ?_, walk⟩
        rw [show target = after by simpa [first] using head.symm]
        exact step
    · rintro ⟨rest, rfl, distinct, inside, first, walk⟩
      cases rest with
      | nil => exact absurd (Option.some.inj first).symm other
      | cons head rest =>
        cases first
        obtain ⟨step, walk⟩ := List.isChain_cons.mp walk
        obtain ⟨after, isAfter⟩ : ∃ after, (rest ++ [start]).head? = some after := by
          cases rest <;> exact ⟨_, rfl⟩
        refine ⟨after, step after isAfter, (ih after outside').mpr
          ⟨rest, by simp, (List.nodup_cons.mp distinct).2, ?_, isAfter, walk⟩⟩
        intro target member
        refine OrderedSet.mem_erase.mpr ⟨inside target (List.mem_cons_of_mem _ member), ?_⟩
        rintro rfl
        exact (List.nodup_cons.mp distinct).1 member
  | case3 untouched path node other touched =>
    constructor
    · intro member
      cases member
    · rintro ⟨rest, rfl, _, inside, first, _⟩
      cases rest with
      | nil => exact absurd (Option.some.inj first).symm other
      | cons head rest =>
        cases first
        exact absurd (inside node (List.mem_cons_self ..)) touched

/-- Ways through different targets are different. -/
theorem nodup_flatMap_closings (outside : start ∉ untouched) {targets : List α}
    (distinct : targets.Nodup)
    (each : ∀ target ∈ targets, (closings next start untouched path target).Nodup) :
    (targets.flatMap (closings next start untouched path)).Nodup := by
  refine List.nodup_flatMap.mpr ⟨each, distinct.imp ?_⟩
  intro left right differ cycle leftMember rightMember
  obtain ⟨rest, rfl, _, _, leftFirst, _⟩ := (mem_closings_iff outside).mp leftMember
  obtain ⟨rest', same, _, _, rightFirst, _⟩ := (mem_closings_iff outside).mp rightMember
  obtain rfl := List.append_cancel_left same
  exact differ (Option.some.inj (leftFirst.symm.trans rightFirst))

/-- No way to close a path is listed twice. -/
theorem nodup_closings (distinct : ∀ source, (next source).Nodup) (outside : start ∉ untouched) :
    (closings next start untouched path node).Nodup := by
  fun_induction closings next start untouched path node with
  | case1 untouched path => exact List.nodup_singleton _
  | case2 untouched path node other fresh ih =>
    have outside' : start ∉ untouched.erase node :=
      fun member => outside (OrderedSet.mem_erase.mp member).1
    exact nodup_flatMap_closings outside' (distinct node) fun after _ => ih after outside'
  | case3 untouched path node other touched => exact .nil

/-- Targets that are touched anyway may be left out. -/
theorem flatMap_closings_filter (keep : α → Bool) (start_kept : keep start)
    (kept : ∀ other ∈ untouched, keep other) (targets : List α) :
    (targets.filter keep).flatMap (closings next start untouched path) =
      targets.flatMap (closings next start untouched path) := by
  induction targets with
  | nil => rfl
  | cons target rest ih =>
    rw [List.filter_cons, List.flatMap_cons, ← ih]
    split
    · rfl
    · rename_i dropped
      have elsewhere : target ≠ start := by
        rintro rfl
        exact dropped start_kept
      rw [closings_of_not_mem elsewhere fun member => dropped (kept target member), List.nil_append]

/-- Nodes that are touched anyway may be left out of the edges. -/
theorem closings_filter (keep : α → Bool) (start_kept : keep start)
    (kept : ∀ other ∈ untouched, keep other) :
    closings (fun source => (next source).filter keep) start untouched path node =
      closings next start untouched path node := by
  fun_induction closings next start untouched path node with
  | case1 untouched path => exact closings_start
  | case2 untouched path node other fresh ih =>
    have kept' : ∀ target ∈ untouched.erase node, keep target :=
      fun target member => kept target (OrderedSet.mem_erase.mp member).1
    rw [closings_of_mem other fresh]
    calc ((next node).filter keep).flatMap
          (closings (fun source => (next source).filter keep) start (untouched.erase node) (path ++ [node]))
      _ = ((next node).filter keep).flatMap
          (closings next start (untouched.erase node) (path ++ [node])) :=
        List.flatMap_congr fun after _ => ih after kept'
      _ = (next node).flatMap (closings next start (untouched.erase node) (path ++ [node])) :=
        flatMap_closings_filter keep start_kept kept' _
  | case3 untouched path node other touched => exact closings_of_not_mem other touched

end Closings

end Graph

end ProcessFlow
