import ProcessFlow.Proofs.Graph.Acyclic

/-! # The least topological order

Of all the orders in which the nodes of a graph can leave, the countdown takes the lexicographically
least one: whatever leaves first in another order is ready at the start, and of the ready nodes the
least leaves. This holds with cycles as well, where some nodes never leave. No node leaves twice, and
no edge is taken away from a node whose count is zero.
-/

namespace ProcessFlow

namespace Graph

open Relation

variable {α : Type} [LT α] [DecidableEq α] {graph : Graph α} {gone order : List α} {node : α}

/-- The nodes of a graph, each of them once, with every edge from an earlier to a later one. -/
structure IsTopologicalOrder (graph : Graph α) (order : List α) : Prop where
  members : ∀ node, node ∈ order ↔ node ∈ graph
  distinct : order.Nodup
  forward : ∀ source target, graph.Joins source target → [source, target].Sublist order

/-- In a topological order all nodes leave. -/
theorem IsTopologicalOrder.emits (isOrder : graph.IsTopologicalOrder order) :
    graph.Emits [] order where
  inside node member := ⟨(isOrder.members node).mp member, List.not_mem_nil⟩
  distinct := isOrder.distinct
  sources source target _ joins := .inr (isOrder.forward source target joins)
  stuck node member _ missing := absurd ((isOrder.members node).mpr member) missing

/-- The first node to leave waits for no other. -/
theorem Emits.head_free (emits : graph.Emits gone (node :: order)) :
    graph.openEdges (leaves gone) node = 0 := by
  have fresh : node ∉ order := (List.nodup_cons.mp emits.distinct).1
  have member : node ∈ graph := (emits.inside node (List.mem_cons_self ..)).1
  rw [openEdges_eq_zero_iff]
  intro source present isSource
  apply decide_eq_true
  have before := emits.sources source node (List.mem_cons_self ..) ⟨present, isSource, member⟩
  apply before.resolve_right
  intro after
  cases after with
  | cons _ later => exact fresh (later.subset (by simp))
  | cons_cons _ later => exact fresh (List.singleton_sublist.mp later)

/-- Once the first node has left, the others leave in their order. -/
theorem Emits.tail (emits : graph.Emits gone (node :: order)) : graph.Emits (node :: gone) order := by
  obtain ⟨fresh, distinct⟩ := List.nodup_cons.mp emits.distinct
  constructor
  · intro other later
    obtain ⟨member, stays⟩ := emits.inside other (List.mem_cons_of_mem _ later)
    refine ⟨member, ?_⟩
    rw [List.mem_cons, not_or]
    refine ⟨?_, stays⟩
    rintro rfl
    exact fresh later
  · exact distinct
  · intro source target later joins
    rcases emits.sources source target (List.mem_cons_of_mem _ later) joins with left | before
    · exact .inl (List.mem_cons_of_mem _ left)
    · cases before with
      | cons _ before => exact .inr before
      | cons_cons _ _ => exact .inl (List.mem_cons_self ..)
  · intro other member stays missing
    rw [List.mem_cons, not_or] at stays
    have missing : other ∉ node :: order := by
      rw [List.mem_cons, not_or]
      exact ⟨stays.1, missing⟩
    obtain ⟨source, joins, sourceStays, sourceMissing⟩ := emits.stuck other member stays.2 missing
    rw [List.mem_cons, not_or] at sourceMissing
    refine ⟨source, joins, ?_, sourceMissing.2⟩
    rw [List.mem_cons, not_or]
    exact ⟨sourceMissing.1, sourceStays⟩

variable [LE α] [DecidableLT α] [Std.IsLinearOrder α] [Std.LawfulOrderLT α]

/-- From wherever the countdown stands, no order in which nodes can leave is less than that of the
countdown. -/
theorem emit_least {state : Countdown α} (inside : ∀ node ∈ gone, node ∈ graph)
    (counts : Countdown.Counts graph (leaves gone) gone state) (emits : graph.Emits gone order) :
    Countdown.emit graph.successors state = order ∨
      List.Lex (· < ·) (Countdown.emit graph.successors state) order := by
  fun_induction Countdown.emit graph.successors state generalizing gone order with
  | case1 state empty =>
    cases order with
    | nil => exact .inl rfl
    | cons head rest => exact .inr .nil
  | case2 state node rest shape ih =>
    obtain ⟨held, ready⟩ := state
    obtain rfl : ready = node :: rest := shape
    obtain ⟨member, stays, none⟩ := (counts.ready node).mp (List.mem_cons_self ..)
    cases order with
    | nil =>
      obtain ⟨source, joins, remains, _⟩ := emits.stuck node member stays List.not_mem_nil
      have closed := openEdges_eq_zero_iff.mp none source joins.1 joins.2.1
      exact absurd (of_decide_eq_true closed) remains
    | cons head order =>
      -- What leaves first in the other order is ready, and here the least of the ready nodes leaves.
      obtain ⟨headMember, headStays⟩ := emits.inside head (List.mem_cons_self ..)
      have isReady := (counts.ready head).mpr ⟨headMember, headStays, emits.head_free⟩
      rcases List.mem_cons.mp isReady with rfl | later
      · have insideNext := List.forall_mem_cons.mpr ⟨member, inside⟩
        rcases ih insideNext (counts.leave inside) emits.tail with same | less
        · exact .inl (congrArg (List.cons head) same)
        · exact .inr (.cons less)
      · exact .inr (.rel ((List.pairwise_cons.mp counts.ascending).1 head later))

/-- In no order can the nodes leave that is less than the one in which they do, with or without
cycles. -/
theorem departures_least (emits : graph.Emits [] order) :
    graph.departures = order ∨ List.Lex (· < ·) graph.departures order := by
  have inside : ∀ node ∈ ([] : List α), node ∈ graph := nofun
  exact emit_least inside (Countdown.counts_countdown graph) emits

/-- The sorted nodes are a topological order. -/
theorem isTopologicalOrder_of_topologicalSort (sorted : graph.topologicalSort = some order) :
    graph.IsTopologicalOrder order := by
  obtain ⟨all, forward⟩ := order_of_topologicalSort sorted
  exact ⟨fun _ => all.mem_iff, all.nodup_iff.mpr (graph.nodes.ascending.imp Std.ne_of_lt), forward⟩

/-- No node of the sorted nodes leads to an earlier one. -/
theorem pairwise_of_topologicalSort (sorted : graph.topologicalSort = some order) :
    order.Pairwise fun earlier later => ¬ReflTransGen graph.Joins later earlier := by
  have distinct := (isTopologicalOrder_of_topologicalSort sorted).distinct
  rw [List.pairwise_iff_getElem]
  intro first second firstInside secondInside before walk
  rcases reflTransGen_iff_eq_or_transGen.mp walk with same | back
  · have places := (List.Nodup.getElem_inj_iff distinct).mp same
    omega
  · have places := idxOf_lt_of_transGen sorted back
    rw [distinct.idxOf_getElem, distinct.idxOf_getElem] at places
    omega

end Graph

/-! ## Counts above zero -/

namespace Countdown

variable {α : Type} [LE α] [LT α] [DecidableLT α] [DecidableEq α] [Std.IsLinearOrder α]
  [Std.LawfulOrderLT α] {state after : Countdown α} {node : α} {targets : List α}

/-- Take away one edge that holds a node back, unless the count of the node is zero. -/
def settle? (state : Countdown α) (node : α) : Option (Countdown α) :=
  if state.held.get? node = some 0 then none else some (state.settle node)

theorem foldl_of_foldlM_settle? (settled : targets.foldlM settle? state = some after) :
    targets.foldl settle state = after := by
  induction targets generalizing state with
  | nil => exact Option.some.inj settled
  | cons target rest ih =>
    rw [List.foldlM_cons] at settled
    obtain ⟨next, step, settled⟩ := Option.bind_eq_some_iff.mp settled
    rw [settle?] at step
    split at step
    · cases step
    · cases step
      exact ih settled

/-- Let the ready nodes leave, the least first, and stop without a result when an edge would have to
be taken away from a node whose count is zero. -/
def emit? (next : α → List α) (state : Countdown α) : Option (List α) :=
  match _shape : state.ready with
  | [] => some []
  | node :: rest =>
    match _settled : (next node).foldlM settle? { state with ready := rest } with
    | none => none
    | some after => (emit? next after).map (node :: ·)
termination_by state.weight
decreasing_by
  rw [← foldl_of_foldlM_settle? _settled]
  apply Nat.lt_of_le_of_lt (weight_foldl_settle_le _ _)
  simp [weight, _shape]

theorem emit?_of_empty {next : α → List α} (empty : state.ready = []) : emit? next state = some [] := by
  rw [emit?]
  split
  · rfl
  · rename_i node rest shape
    rw [empty] at shape
    cases shape

theorem emit?_of_settled {next : α → List α} {rest : List α} (shape : state.ready = node :: rest)
    (settled : (next node).foldlM settle? { state with ready := rest } = some after) :
    emit? next state = (emit? next after).map (node :: ·) := by
  rw [emit?]
  split
  · rename_i empty
    rw [shape] at empty
    cases empty
  · rename_i other others same
    rw [shape] at same
    cases same
    split
    · rename_i failed
      rw [settled] at failed
      cases failed
    · rename_i found reached
      rw [settled] at reached
      cases reached
      rfl

/-- If no count on the way is zero, the edges are taken away as without the check. -/
theorem foldlM_settle?_of_pos
    (positive : ∀ before target rest, targets = before ++ target :: rest →
      (before.foldl settle state).held.get? target ≠ some 0) :
    targets.foldlM settle? state = some (targets.foldl settle state) := by
  induction targets generalizing state with
  | nil => rfl
  | cons target rest ih =>
    have here : state.settle? target = some (state.settle target) :=
      if_neg (positive [] target rest rfl)
    rw [List.foldlM_cons, here, List.foldl_cons]
    apply ih
    intro before next others split
    apply positive (target :: before) next others
    rw [split, List.cons_append]

open ProcessFlow.Graph

variable {graph : Graph α} {closed : Edge α → Bool} {gone : List α}

omit [DecidableLT α] in
/-- The target of an open edge has a count above zero. -/
theorem Counts.get?_ne_zero {target : α} (counts : Counts graph closed gone state)
    (joins : graph.Joins node target) (isOpen : closed ⟨node, target⟩ = false) :
    state.held.get? target ≠ some 0 := by
  obtain ⟨present, source, member⟩ := joins
  have less : graph.openEdges (close closed ⟨node, target⟩) target + 1 =
      graph.openEdges closed target := openEdges_close present source isOpen
  rw [counts.held target member, Ne, Option.some.injEq]
  omega

/-- While the edges of the least ready node are taken away, every count that is lowered is above
zero. -/
theorem Counts.foldlM_settle? {rest : List α} {held : OrderedMap α Nat}
    (counts : Counts graph (leaves gone) gone ⟨held, node :: rest⟩) :
    (graph.successors node).foldlM Countdown.settle? ⟨held, rest⟩ =
      some ((graph.successors node).foldl Countdown.settle ⟨held, rest⟩) := by
  obtain ⟨_, stays, _⟩ := (counts.ready node).mp (List.mem_cons_self ..)
  have distinct : (graph.successors node).Nodup :=
    (graph.successors_ascending node).imp Std.ne_of_lt
  have joins (target : α) (member : target ∈ graph.successors node) : graph.Joins node target :=
    mem_successors.mp member
  apply foldlM_settle?_of_pos
  intro before target others split
  rw [split] at distinct joins
  obtain ⟨distinctBefore, _, apart⟩ := List.nodup_append.mp distinct
  have fresh : target ∉ before := fun repeated =>
    apart target repeated target (List.mem_cons_self ..) rfl
  -- The edges to the targets before this one are closed by now, and the edge to this one is not.
  have settled := counts.remove.foldl_settle distinctBefore
    (fun other member => joins other (List.mem_append_left _ member))
    (fun _ _ => decide_eq_false stays)
  apply settled.get?_ne_zero (joins target (List.mem_append_right _ (List.mem_cons_self ..)))
  simp [leaves, stays, fresh]

/-- From wherever the countdown stands, the check never stops it. -/
theorem emit?_eq_some (inside : ∀ node ∈ gone, node ∈ graph)
    (counts : Counts graph (leaves gone) gone state) :
    emit? graph.successors state = some (emit graph.successors state) := by
  fun_induction emit graph.successors state generalizing gone with
  | case1 state empty => exact emit?_of_empty empty
  | case2 state node rest shape ih =>
    obtain ⟨held, ready⟩ := state
    obtain rfl : ready = node :: rest := shape
    obtain ⟨member, _, _⟩ := (counts.ready node).mp (List.mem_cons_self ..)
    have later := ih (List.forall_mem_cons.mpr ⟨member, inside⟩) (counts.leave inside)
    rw [emit?_of_settled rfl counts.foldlM_settle?, later]
    rfl

end Countdown

namespace Graph

open Relation

variable {α : Type} [LE α] [LT α] [DecidableLT α] [DecidableEq α] [Std.IsLinearOrder α]
  [Std.LawfulOrderLT α]

theorem emit?_departures (graph : Graph α) :
    Countdown.emit? graph.successors graph.countdown = some graph.departures := by
  have inside : ∀ node ∈ ([] : List α), node ∈ graph := nofun
  exact Countdown.emit?_eq_some inside (Countdown.counts_countdown graph)

/-- The sorted nodes are a topological order, in which no node leads to an earlier one, and the
lexicographically least of all topological orders. On every graph the nodes leave without an edge being
taken away from a node whose count is zero, and no node leaves twice; they are the sorted nodes if all
of them leave. -/
theorem topologicalSort_exact (graph : Graph α) :
    (∀ order, graph.topologicalSort = some order → graph.IsTopologicalOrder order ∧
      (order.Pairwise fun earlier later => ¬ReflTransGen graph.Joins later earlier) ∧
      ∀ other, graph.IsTopologicalOrder other →
        order = other ∨ List.Lex (· < ·) order other) ∧
    Countdown.emit? graph.successors graph.countdown = some graph.departures ∧
    graph.departures.Nodup ∧
    graph.topologicalSort =
      if graph.departures.length = graph.size then some graph.departures else none := by
  refine ⟨fun order sorted => ⟨isTopologicalOrder_of_topologicalSort sorted,
    pairwise_of_topologicalSort sorted, fun other isOrder => ?_⟩, graph.emit?_departures,
    graph.emits_departures.distinct, graph.topologicalSort_eq⟩
  have least := departures_least isOrder.emits
  rw [topologicalSort_eq] at sorted
  split at sorted
  · cases sorted
    exact least
  · cases sorted

/-- Two chains that meet, with edges that dangle. -/
def meeting : Graph Nat :=
  .ofLists [1, 2, 3, 4, 5] [⟨3, 1⟩, ⟨4, 2⟩, ⟨1, 5⟩, ⟨2, 5⟩, ⟨9, 1⟩, ⟨2, 9⟩]

/-- The chains one after the other, and the other way round. -/
theorem topologicalSort_exact_meeting :
    meeting.topologicalSort = some [3, 1, 4, 2, 5] ∧
      meeting.IsTopologicalOrder [3, 1, 4, 2, 5] ∧ meeting.IsTopologicalOrder [4, 2, 3, 1, 5] ∧
      ([3, 1, 4, 2, 5] = [4, 2, 3, 1, 5] ∨ List.Lex (· < ·) [3, 1, 4, 2, 5] [4, 2, 3, 1, 5]) ∧
      Countdown.emit? meeting.successors meeting.countdown = some meeting.departures ∧
      meeting.departures.Nodup := by
  obtain ⟨exact, unchecked, distinct, _⟩ := topologicalSort_exact meeting
  have sorted : meeting.topologicalSort = some [3, 1, 4, 2, 5] := by cbv
  obtain ⟨isOrder, _, least⟩ := exact _ sorted
  have other : meeting.IsTopologicalOrder [4, 2, 3, 1, 5] := by
    have within : ∀ edge ∈ meeting.edges.toList, edge.source ∈ meeting → edge.target ∈ meeting →
        [edge.source, edge.target].Sublist [4, 2, 3, 1, 5] := by decide
    have turned : [4, 2, 3, 1, 5].Perm [3, 1, 4, 2, 5] := by decide
    refine ⟨fun node => turned.mem_iff.trans (isOrder.members node), by decide, ?_⟩
    rintro source target ⟨present, isSource, isTarget⟩
    exact within ⟨source, target⟩ (OrderedSet.mem_toList.mpr present) isSource isTarget
  exact ⟨sorted, isOrder, other, least _ other, unchecked, distinct⟩

end Graph

end ProcessFlow
