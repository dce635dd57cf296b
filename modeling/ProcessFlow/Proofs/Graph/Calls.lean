import ProcessFlow.Proofs.Graph.Enumeration

/-! # The calls of a search for circuits

The search calls itself for every node that it enters, and a release calls itself for every node that
waits. Neither has a bound of its own: a released node may be entered again, and a node may wait for
one that has come back to the path. `Releases` and `Visits` are the two recursions as they unfold, to
whatever depth, and `Runs` adds the log of all calls.

`exists_runs` unfolds the whole recursion of a search, with every call coherent where it is entered
and where it is left; `Runs.unique` says that there is no other way to unfold it. A call blocks its
node on top of a path of distinct nodes, so calls nest no deeper than there are nodes to walk through.
-/

namespace ProcessFlow

namespace CircuitSearch

variable {α : Type} [LT α] [DecidableEq α] {search after : CircuitSearch α} {node : α}

/-! ## Releases -/

/-- Pending nodes are looked at in turn. One that is blocked is released, and all that waits for it is
looked at before the next. -/
inductive Releases : CircuitSearch α → List α → CircuitSearch α → Prop where
  | nil {search : CircuitSearch α} : Releases search [] search
  | pass {search after : CircuitSearch α} {node : α} {pending : List α}
      (free : node ∉ search.blocked) (rest : Releases search pending after) :
      Releases search (node :: pending) after
  | release {search middle after : CircuitSearch α} {node : α} {pending : List α}
      (blocked : node ∈ search.blocked)
      (waiters : Releases (search.release node) (search.waitersOf node) middle)
      (rest : Releases middle pending after) : Releases search (node :: pending) after

/-- The release of a node ends in a search. -/
def Unblocks (search : CircuitSearch α) (node : α) (after : CircuitSearch α) : Prop :=
  Releases (search.release node) (search.waitersOf node) after

theorem cascade_append (first second : List α) :
    search.cascade (first ++ second) = (search.cascade first).cascade second := by
  fun_induction cascade search first with
  | case1 => rfl
  | case2 search node pending blocked ih =>
    rw [List.cons_append, cascade, if_pos blocked, ← List.append_assoc, ih]
  | case3 search node pending free ih => rw [List.cons_append, cascade, if_neg free, ih]

theorem Releases.eq_cascade {pending : List α} (releases : Releases search pending after) :
    after = search.cascade pending := by
  induction releases with
  | nil => rw [cascade]
  | pass free _ ih => rw [cascade, if_neg free, ih]
  | release blocked _ _ waiters rest =>
    rw [cascade, if_pos blocked, cascade_append, ← waiters, ← rest]

theorem Releases.of_append {first second : List α} (releases : Releases search (first ++ second) after) :
    ∃ middle, Releases search first middle ∧ Releases middle second after := by
  induction first generalizing search with
  | nil => exact ⟨search, .nil, releases⟩
  | cons node rest ih =>
    cases releases with
    | pass free later =>
      obtain ⟨middle, front, back⟩ := ih later
      exact ⟨middle, .pass free front, back⟩
    | release blocked waiters later =>
      obtain ⟨middle, front, back⟩ := ih later
      exact ⟨middle, .release blocked waiters front, back⟩

/-- However nodes wait for one another, a cascade comes to an end. -/
theorem releases_cascade (search : CircuitSearch α) (pending : List α) :
    Releases search pending (search.cascade pending) := by
  fun_induction cascade search pending with
  | case1 => exact .nil
  | case2 search node pending blocked ih =>
    obtain ⟨middle, waiters, rest⟩ := ih.of_append
    exact .release blocked waiters rest
  | case3 search node pending free ih => exact .pass free ih

theorem unblocks_iff : Unblocks search node after ↔ after = search.unblock node :=
  ⟨Releases.eq_cascade, fun same => same ▸ releases_cascade ..⟩

section Order

variable [LE α] [DecidableLT α] [Std.IsLinearOrder α] [Std.LawfulOrderLT α]
  {next : α → List α} {start : α} {path : List α}

/-! ## Calls -/

/-- A call of the search: the path of its callers, the node it is for, the search it is entered with,
and the answer and the search it is left with. -/
structure Call (α : Type) [LT α] where
  path : List α
  node : α
  before : CircuitSearch α
  outcome : Bool × CircuitSearch α

/-- How many calls are under way within a call, itself among them. -/
def Call.depth (call : Call α) : Nat := call.path.length + 1

/-- The end of a call that has looked at all successors of its node. The node is released if a cycle
was closed, and waits for its successors otherwise. -/
inductive Leaves (next : α → List α) (node : α) : Bool × CircuitSearch α → Bool × CircuitSearch α →
    Prop where
  | closed {search after : CircuitSearch α} (unblocks : Unblocks search node after) :
      Leaves next node (true, search) (true, after)
  | stuck {search : CircuitSearch α} :
      Leaves next node (false, search) (false, search.defer node (next node))

/-- Targets are looked at in turn from the end of a path, with the log of all calls made meanwhile. -/
inductive Visits (next : α → List α) (start : α) : List α → List α → Bool × CircuitSearch α →
    List (Call α) → Bool × CircuitSearch α → Prop where
  | nil {path : List α} {state : Bool × CircuitSearch α} : Visits next start path [] state [] state
  | close {path targets : List α} {state outcome : Bool × CircuitSearch α} {calls : List (Call α)}
      (rest : Visits next start path targets
        (true, { state.2 with found := path :: state.2.found }) calls outcome) :
      Visits next start path (start :: targets) state calls outcome
  | pass {path targets : List α} {target : α} {state outcome : Bool × CircuitSearch α}
      {calls : List (Call α)} (notStart : target ≠ start) (blocked : target ∈ state.2.blocked)
      (rest : Visits next start path targets state calls outcome) :
      Visits next start path (target :: targets) state calls outcome
  | descend {path targets : List α} {target : α} {state searched answer outcome : Bool × CircuitSearch α}
      {within calls : List (Call α)} (notStart : target ≠ start) (free : target ∉ state.2.blocked)
      (visits : Visits next start (path ++ [target]) (next target) (false, state.2.enter target)
        within searched)
      (leaves : Leaves next target searched answer)
      (rest : Visits next start path targets (state.1 || answer.1, answer.2) calls outcome) :
      Visits next start path (target :: targets) state
        (⟨path, target, state.2, answer⟩ :: within ++ calls) outcome

/-- A call of the search comes to an end, with the log of all calls made meanwhile, its own first. -/
inductive Runs (next : α → List α) (start : α) (path : List α) (node : α) (search : CircuitSearch α) :
    List (Call α) → Bool × CircuitSearch α → Prop where
  | call {searched outcome : Bool × CircuitSearch α} {within : List (Call α)}
      (visits : Visits next start (path ++ [node]) (next node) (false, search.enter node) within searched)
      (leaves : Leaves next node searched outcome) :
      Runs next start path node search (⟨path, node, search, outcome⟩ :: within) outcome

theorem Leaves.unique {searched outcome other : Bool × CircuitSearch α}
    (one : Leaves next node searched outcome) (two : Leaves next node searched other) :
    outcome = other := by
  cases one with
  | closed unblocks =>
    cases two with
    | closed unblocks' => rw [unblocks_iff.mp unblocks, unblocks_iff.mp unblocks']
  | stuck =>
    cases two with
    | stuck => rfl

theorem Visits.unique {targets : List α} {state outcome other : Bool × CircuitSearch α}
    {calls others : List (Call α)} (one : Visits next start path targets state calls outcome)
    (two : Visits next start path targets state others other) : calls = others ∧ outcome = other := by
  induction one generalizing others other with
  | nil =>
    cases two with
    | nil => exact ⟨rfl, rfl⟩
  | close _ ih =>
    cases two with
    | close rest => exact ih rest
    | pass notStart => exact absurd rfl notStart
    | descend notStart => exact absurd rfl notStart
  | pass notStart blocked _ ih =>
    cases two with
    | close => exact absurd rfl notStart
    | pass _ _ rest => exact ih rest
    | descend _ free => exact absurd blocked free
  | descend notStart free _ leaves _ inner ih =>
    cases two with
    | close => exact absurd rfl notStart
    | pass _ blocked => exact absurd blocked free
    | descend _ _ visits leaves' rest =>
      obtain ⟨rfl, rfl⟩ := inner visits
      obtain rfl := leaves.unique leaves'
      obtain ⟨rfl, rfl⟩ := ih rest
      exact ⟨rfl, rfl⟩

/-- A search has one run only. -/
theorem Runs.unique {outcome other : Bool × CircuitSearch α} {calls others : List (Call α)}
    (one : Runs next start path node search calls outcome)
    (two : Runs next start path node search others other) : calls = others ∧ outcome = other := by
  obtain ⟨visits, leaves⟩ := one
  obtain ⟨visits', leaves'⟩ := two
  obtain ⟨rfl, rfl⟩ := visits.unique visits'
  obtain rfl := leaves.unique leaves'
  exact ⟨rfl, rfl⟩

/-! ## What holds of every call -/

/-- A call on a path through a field that begins and ends with a coherent search. -/
structure Sound (next : α → List α) (start : α) (field : OrderedSet α) (call : Call α) : Prop where
  inside : ∀ other ∈ call.path ++ [call.node], other ∈ field
  free : call.node ∉ call.before.blocked
  entered : Coherent next start call.path call.before
  left : Coherent next start call.path call.outcome.2
  grows : Grows call.before call.outcome.2

variable {field : OrderedSet α}

theorem Sound.depth_le {call : Call α} (sound : Sound next start field call) :
    call.depth ≤ field.size :=
  length_lt_of_free sound.entered sound.free sound.inside

/-- All targets in turn, when each that is entered has a run of sound calls. -/
theorem exists_visits {descend : α → CircuitSearch α → Bool × CircuitSearch α} {targets : List α}
    (state : Bool × CircuitSearch α) (coherent : Coherent next start path state.2)
    (descends : ∀ target ∈ targets, ∀ inner, Coherent next start path inner → target ≠ start →
      target ∉ inner.blocked → ∃ calls, Runs next start path target inner calls (descend target inner) ∧
        ∀ call ∈ calls, Sound next start field call) :
    ∃ calls, Visits next start path targets state calls
        (targets.foldl (visit start path descend) state) ∧
      ∀ call ∈ calls, Sound next start field call := by
  induction targets generalizing state with
  | nil => exact ⟨[], .nil, by simp⟩
  | cons target rest ih =>
    have later (state : Bool × CircuitSearch α) (coherent : Coherent next start path state.2) :=
      ih state coherent fun other member => descends other (List.mem_cons_of_mem _ member)
    rw [List.foldl_cons, visit]
    split
    · rename_i isStart
      subst isStart
      obtain ⟨calls, visits, sound⟩ := later (true, { state.2 with found := path :: state.2.found })
        ⟨coherent.distinct, coherent.path_blocked, coherent.held, coherent.waited⟩
      exact ⟨calls, .close visits, sound⟩
    · rename_i notStart
      split
      · rename_i blocked
        obtain ⟨calls, visits, sound⟩ := later state coherent
        exact ⟨calls, .pass notStart blocked visits, sound⟩
      · rename_i free
        obtain ⟨within, runs, soundWithin⟩ :=
          descends target (List.mem_cons_self ..) state.2 coherent notStart free
        generalize descend target state.2 = answer at runs ⊢
        obtain ⟨visitsWithin, leaves⟩ := runs
        obtain ⟨calls, visits, sound⟩ := later (state.1 || answer.1, answer.2)
          (soundWithin _ (List.mem_cons_self ..)).left
        exact ⟨_, .descend notStart free visitsWithin leaves visits,
          List.forall_mem_append.mpr ⟨soundWithin, sound⟩⟩

/-- A search has a run of sound calls, however deep it is allowed to go, as long as there is room for
every path through the field. -/
theorem exists_runs (stays : ∀ source, ∀ target ∈ next source, target ∈ field) {depth : Nat}
    {path : List α} {node : α} {search : CircuitSearch α} (coherent : Coherent next start path search)
    (free : node ∉ search.blocked) (inside : ∀ other ∈ path ++ [node], other ∈ field)
    (room : field.size ≤ path.length + depth) :
    ∃ calls, Runs next start path node search calls (circuit next start depth path node search) ∧
      ∀ call ∈ calls, Sound next start field call := by
  induction depth generalizing path node search with
  | zero => exact absurd (length_lt_of_free coherent free inside) (by omega)
  | succ depth ih =>
    have descends : ∀ target ∈ next node, ∀ inner, Coherent next start (path ++ [node]) inner →
        target ≠ start → target ∉ inner.blocked →
        ∃ calls, Runs next start (path ++ [node]) target inner calls
            (circuit next start depth (path ++ [node]) target inner) ∧
          ∀ call ∈ calls, Sound next start field call := by
      intro target step inner coherentInner _ freeInner
      have insideInner : ∀ other ∈ path ++ [node] ++ [target], other ∈ field :=
        List.forall_mem_append.mpr ⟨inside, List.forall_mem_singleton.mpr (stays node target step)⟩
      apply ih coherentInner freeInner insideInner
      rw [List.length_append, List.length_singleton]
      omega
    have explored := circuit_explores stays coherent free inside room
    have sound : Sound next start field
        ⟨path, node, search, circuit next start (depth + 1) path node search⟩ :=
      ⟨inside, free, coherent, explored.coherent, explored.grows⟩
    obtain ⟨within, visits, soundWithin⟩ :=
      exists_visits (false, search.enter node) (coherent.enter free) descends
    refine ⟨_, .call visits ?_, List.forall_mem_cons.mpr ⟨sound, soundWithin⟩⟩
    rw [circuit]
    generalize (next node).foldl _ _ = searched
    obtain ⟨closed, searched⟩ := searched
    cases closed with
    | true => exact .closed (unblocks_iff.mpr rfl)
    | false => exact .stuck

end Order

end CircuitSearch

namespace Graph

variable {α : Type} [LT α] [LE α] [DecidableLT α] [DecidableEq α] [Std.IsLinearOrder α]
  [Std.LawfulOrderLT α] {graph : Graph α} {start node after : α} {path : List α}
  {search : CircuitSearch α}

/-! ## The search from a node of a graph -/

theorem mem_successorsFrom :
    after ∈ graph.successorsFrom start node ↔ graph.Joins node after ∧ start ≤ after := by
  rw [successorsFrom, List.mem_filter, mem_successors, decide_eq_true_eq, Std.not_lt]

/-- What holds of the path and the search of a graph. The nodes of the path are distinct, not less
than the start, and blocked. Any other blocked node waits for each of its successors from the start
on, all of them blocked, and each walk from it back to the start runs into the path before. -/
structure Guarded (graph : Graph α) (start : α) (path : List α) (search : CircuitSearch α) : Prop where
  distinct : path.Nodup
  above : ∀ node ∈ path, start ≤ node
  blocked : ∀ node ∈ path, node ∈ search.blocked
  held : ∀ node ∈ search.blocked, node ∉ path → ∀ after, graph.Joins node after → start ≤ after →
    after ∈ search.blocked ∧ node ∈ search.waitersOf after
  cut : ∀ node ∈ search.blocked, node ∉ path → ∀ between, (∀ other ∈ between, start ≤ other) →
    (node :: between ++ [start]).IsChain graph.Joins → ∃ other ∈ between, other ∈ path

/-- A walk from a blocked node stays among blocked nodes until it meets the path, and none of these
leads to the start. -/
theorem exists_mem_path_of_walk
    (coherent : CircuitSearch.Coherent (graph.successorsFrom start) start path search)
    (blocked : node ∈ search.blocked) (outside : node ∉ path) {between : List α}
    (above : ∀ other ∈ between, start ≤ other)
    (walk : (node :: between ++ [start]).IsChain graph.Joins) : ∃ other ∈ between, other ∈ path := by
  induction between generalizing node with
  | nil =>
    obtain ⟨step, _⟩ := List.isChain_cons_cons.mp walk
    have held := coherent.held node blocked outside start (mem_successorsFrom.mpr ⟨step, Std.le_refl _⟩)
    exact absurd rfl held.1
  | cons head rest ih =>
    obtain ⟨step, walk⟩ := List.isChain_cons_cons.mp walk
    obtain ⟨aboveHead, aboveRest⟩ := List.forall_mem_cons.mp above
    by_cases onPath : head ∈ path
    · exact ⟨head, List.mem_cons_self .., onPath⟩
    · have held := coherent.held node blocked outside head (mem_successorsFrom.mpr ⟨step, aboveHead⟩)
      obtain ⟨other, member, met⟩ := ih held.2.1 onPath aboveRest walk
      exact ⟨other, List.mem_cons_of_mem _ member, met⟩

theorem guarded_of_coherent
    (coherent : CircuitSearch.Coherent (graph.successorsFrom start) start path search)
    (inside : ∀ node ∈ path, node ∈ graph.nodesFrom start) : graph.Guarded start path search where
  distinct := coherent.distinct
  above node member := by
    have kept := (OrderedSet.mem_filter.mp (inside node member)).2
    rwa [decide_eq_true_eq, Std.not_lt] at kept
  blocked := coherent.path_blocked
  held node blocked outside after step above :=
    (coherent.held node blocked outside after (mem_successorsFrom.mpr ⟨step, above⟩)).2
  cut _ blocked outside _ := exists_mem_path_of_walk coherent blocked outside

/-- A call that is sound is guarded where it is entered, when its node has joined the path, and where
it is left. -/
theorem guarded_of_sound {call : CircuitSearch.Call α}
    (sound : CircuitSearch.Sound (graph.successorsFrom start) start (graph.nodesFrom start) call) :
    graph.Guarded start call.path call.before ∧
      graph.Guarded start (call.path ++ [call.node]) (call.before.enter call.node) ∧
      graph.Guarded start call.path call.outcome.2 := by
  have inside : ∀ node ∈ call.path, node ∈ graph.nodesFrom start := fun node member =>
    sound.inside node (List.mem_append_left _ member)
  exact ⟨guarded_of_coherent sound.entered inside,
    guarded_of_coherent (sound.entered.enter sound.free) sound.inside,
    guarded_of_coherent sound.left inside⟩

/-- Every release comes to an end, and so does the search from a node of the graph, in one way only.
Its outcome is that of the bounded search, with any bound that the nodes from the start on do not
exceed. At each of its calls the path is guarded, what was blocked at the beginning of the call is
blocked at its end, and no more calls are under way than there are nodes from the start on. -/
theorem calls_exact (graph : Graph α) {start : α} (member : start ∈ graph) :
    (∀ (search : CircuitSearch α) node, ∃ after, search.Unblocks node after) ∧
    (∃ calls outcome, CircuitSearch.Runs (graph.successorsFrom start) start [] start .initial
      calls outcome) ∧
    ∀ calls outcome, CircuitSearch.Runs (graph.successorsFrom start) start [] start .initial
        calls outcome →
      (∀ bound, (graph.nodesFrom start).size ≤ bound →
        CircuitSearch.circuit (graph.successorsFrom start) start bound [] start .initial = outcome) ∧
      cyclesFrom graph.successors graph.size start = outcome.2.found ∧
      ∀ call ∈ calls,
        graph.Guarded start call.path call.before ∧
        graph.Guarded start (call.path ++ [call.node]) (call.before.enter call.node) ∧
        graph.Guarded start call.path call.outcome.2 ∧
        (∀ node ∈ call.before.blocked, node ∈ call.outcome.2.blocked) ∧
        call.depth ≤ (graph.nodesFrom start).size := by
  have inside : ∀ node ∈ [] ++ [start], node ∈ graph.nodesFrom start :=
    List.forall_mem_singleton.mpr (mem_nodesFrom_self member)
  have bounded (bound : Nat) (room : (graph.nodesFrom start).size ≤ ([] : List α).length + bound) :=
    CircuitSearch.exists_runs (fun _ _ => mem_nodesFrom_of_step)
      (CircuitSearch.coherent_initial (graph.successorsFrom start) start) OrderedSet.not_mem_empty
      inside room
  obtain ⟨log, runs, sound⟩ := bounded graph.size (by simpa using graph.size_nodesFrom_le start)
  refine ⟨fun search node => ⟨_, CircuitSearch.unblocks_iff.mpr rfl⟩, ⟨log, _, runs⟩, ?_⟩
  intro calls outcome runs'
  obtain ⟨rfl, rfl⟩ := runs.unique runs'
  refine ⟨fun bound room => ?_, graph.cyclesFrom_successors _ _, fun call isCall => ?_⟩
  · obtain ⟨_, runsBounded, _⟩ := bounded bound (by simpa using room)
    exact (runsBounded.unique runs).2
  · have sound := sound call isCall
    obtain ⟨entered, joined, left⟩ := guarded_of_sound sound
    exact ⟨entered, joined, left, sound.grows.blocked, sound.depth_le⟩

/-- From 3 there is no way but back to 2, which is on the only cycle. -/
def sidetrack : Graph Nat := .ofLists [1, 2, 3, 4] [⟨1, 2⟩, ⟨2, 3⟩, ⟨3, 2⟩, ⟨2, 4⟩, ⟨4, 1⟩]

theorem runs_sidetrack : ∃ calls outcome,
    CircuitSearch.Runs (sidetrack.successorsFrom 1) 1 [] 1 .initial calls outcome ∧
    ∃ call ∈ calls, call.path = [1, 2] ∧ call.node = 3 ∧ 3 ∈ call.outcome.2.blocked := by
  have released {search : CircuitSearch Nat} {node : Nat} : search.Unblocks node (search.unblock node) :=
    CircuitSearch.unblocks_iff.mpr rfl
  exact ⟨_, _, .call
    (.descend (by decide) (by decide)
      (.descend (by decide) (by decide) (.pass (by decide) (by decide) .nil) .stuck
        (.descend (by decide) (by decide) (.close .nil) (.closed released) .nil))
      (.closed released) .nil)
    (.closed released),
    _, .tail _ (.tail _ (.head _)), rfl, rfl, by decide⟩

/-- The call for 3 leaves it blocked behind 2 and ends before the cycle is closed. -/
theorem calls_exact_sidetrack : 1 ∈ sidetrack ∧ ∃ calls outcome,
    CircuitSearch.Runs (sidetrack.successorsFrom 1) 1 [] 1 .initial calls outcome ∧
    outcome.2.found = [[1, 2, 4]] ∧
    ∃ call ∈ calls, call.path = [1, 2] ∧ call.node = 3 ∧ 3 ∈ call.outcome.2.waitersOf 2 ∧
      call.depth ≤ 4 := by
  obtain ⟨calls, outcome, runs, call, isCall, path, node, blocked⟩ := runs_sidetrack
  obtain ⟨_, _, ofRun⟩ := calls_exact sidetrack (by decide : 1 ∈ sidetrack)
  obtain ⟨_, found, ofCall⟩ := ofRun calls outcome runs
  obtain ⟨_, _, left, _, depth⟩ := ofCall call isCall
  have waits := left.held 3 blocked (by rw [path]; decide) 2 (by decide) (by decide)
  refine ⟨by decide, calls, outcome, runs, ?_, call, isCall, path, node, waits.2, depth⟩
  rw [← found]
  cbv

end Graph

end ProcessFlow
