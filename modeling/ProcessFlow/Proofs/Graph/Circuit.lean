import Mathlib.Data.List.Chain
import Mathlib.Data.List.Nodup
import Mathlib.Data.List.Perm.Subperm
import Mathlib.Tactic.Tauto
import ProcessFlow.Graph.Circuit
import ProcessFlow.Proofs.Graph.Cycle

/-! # The search for circuits misses nothing

A node that stays blocked after its call waits for each of its successors, all of them blocked
and none of them the start. So nothing that could be walked from it closes a path, and passing it
over loses nothing. Releases keep this, because the nodes that wait for a released node are
released with it; and they reach no node of the path, because nothing waits for a node that is
not blocked, and so all that a call releases was blocked within the call.

`Coherent` is what holds of a search between two steps, `Grows` what a finished call leaves as it
was, and `circuit_explores` compares a call with the plain search of `closings`.
-/

namespace ProcessFlow

namespace CircuitSearch

variable {α : Type} [LT α] [DecidableEq α] {search : CircuitSearch α} {node other waiter : α}

/-! ## Single steps -/

@[simp] theorem mem_blocked_release :
    other ∈ (search.release node).blocked ↔ other ∈ search.blocked ∧ other ≠ node :=
  OrderedSet.mem_erase

@[simp] theorem waitersOf_release : (search.release node).waitersOf other =
    if other = node then [] else search.waitersOf other := by
  simp only [waitersOf, release, OrderedMap.get?_erase]
  split <;> rfl

theorem waitersOf_initial : (initial : CircuitSearch α).waitersOf other = [] := rfl

section Order

variable [LE α] [DecidableLT α] [Std.IsLinearOrder α] [Std.LawfulOrderLT α]

omit [DecidableEq α] in
@[simp] theorem mem_blocked_enter :
    other ∈ (search.enter node).blocked ↔ other = node ∨ other ∈ search.blocked :=
  OrderedSet.mem_insert

/-- A deferred node waits for each of its successors; nobody else begins or ends waiting. -/
theorem mem_waitersOf_defer {successors : List α} :
    waiter ∈ (search.defer node successors).waitersOf other ↔
      waiter ∈ search.waitersOf other ∨ waiter = node ∧ other ∈ successors := by
  obtain ⟨blocked, waiting, found⟩ := search
  simp only [waitersOf, defer]
  induction successors generalizing waiting with
  | nil => simp
  | cons head rest ih =>
    rw [List.foldl_cons, ih, OrderedMap.get?_insert]
    by_cases same : other = head
    · subst same
      cases waiting.get? other with
      | none => simp [OrderedSet.mem_insert]; tauto
      | some set => simp [OrderedSet.mem_insert]; tauto
    · simp [same]

end Order

/-! ## Cascades -/

@[simp] theorem found_cascade (pending : List α) : (search.cascade pending).found = search.found := by
  fun_induction cascade search pending with
  | case1 => rfl
  | case2 search node pending blocked ih => exact ih
  | case3 search node pending released ih => exact ih

/-- A cascade releases all that was pending, and blocks nothing. -/
theorem mem_blocked_of_cascade {pending : List α} (still : other ∈ (search.cascade pending).blocked) :
    other ∈ search.blocked ∧ other ∉ pending := by
  fun_induction cascade search pending with
  | case1 => exact ⟨still, List.not_mem_nil⟩
  | case2 search node pending blocked ih =>
    obtain ⟨before, free⟩ := ih still
    obtain ⟨before, different⟩ := mem_blocked_release.mp before
    refine ⟨before, fun member => ?_⟩
    rcases List.mem_cons.mp member with same | later
    · exact different same
    · exact free (List.mem_append_right _ later)
  | case3 search node pending released ih =>
    obtain ⟨before, free⟩ := ih still
    refine ⟨before, fun member => ?_⟩
    rcases List.mem_cons.mp member with rfl | later
    · exact released before
    · exact free later

/-- A cascade forgets the waiters of the nodes that it releases and of no others. -/
theorem waitersOf_cascade (pending : List α) : (search.cascade pending).waitersOf other =
    if other ∈ search.blocked ∧ other ∉ (search.cascade pending).blocked then []
    else search.waitersOf other := by
  fun_induction cascade search pending with
  | case1 search => simp
  | case2 search node pending blocked ih =>
    rw [ih]
    by_cases same : other = node
    · subst same
      have gone : other ∉ ((search.release other).cascade (search.waitersOf other ++ pending)).blocked :=
        fun still => (mem_blocked_release.mp (mem_blocked_of_cascade still).1).2 rfl
      simp [blocked, gone]
    · simp [same]
  | case3 search node pending released ih => exact ih

/-- Whoever waits for a released node is released with it. -/
theorem waiter_released {pending : List α} (before : other ∈ search.blocked)
    (gone : other ∉ (search.cascade pending).blocked) (waits : waiter ∈ search.waitersOf other) :
    waiter ∉ (search.cascade pending).blocked := by
  fun_induction cascade search pending with
  | case1 => exact absurd before gone
  | case2 search node pending blocked ih =>
    by_cases same : other = node
    · subst same
      intro still
      exact (mem_blocked_of_cascade still).2 (List.mem_append_left _ waits)
    · refine ih (mem_blocked_release.mpr ⟨before, same⟩) gone ?_
      rwa [waitersOf_release, if_neg same]
  | case3 search node pending released ih => exact ih before gone waits

/-- What holds of the pending nodes and is handed on to waiters holds of all released nodes. -/
theorem released_induction {pending : List α} (claim : α → Prop)
    (base : ∀ node ∈ pending, claim node)
    (step : ∀ node, claim node → ∀ waiter ∈ search.waitersOf node, claim waiter)
    (before : other ∈ search.blocked) (gone : other ∉ (search.cascade pending).blocked) :
    claim other := by
  fun_induction cascade search pending with
  | case1 => exact absurd before gone
  | case2 search node pending blocked ih =>
    have here := base node (List.mem_cons_self ..)
    by_cases same : other = node
    · exact same ▸ here
    · refine ih ?_ ?_ (mem_blocked_release.mpr ⟨before, same⟩) gone
      · intro target member
        rcases List.mem_append.mp member with waits | later
        · exact step node here target waits
        · exact base target (List.mem_cons_of_mem _ later)
      · intro target holds waiter waits
        rw [waitersOf_release] at waits
        split at waits
        · cases waits
        · exact step target holds waiter waits
  | case3 search node pending released ih =>
    exact ih (fun target member => base target (List.mem_cons_of_mem _ member)) step before gone

/-- Releasing a blocked node is a cascade from it. -/
theorem unblock_eq_cascade (blocked : node ∈ search.blocked) :
    search.unblock node = search.cascade [node] := by
  rw [cascade, if_pos blocked, List.append_nil, unblock]

/-! ## What a call keeps -/

/-- What holds of a search between two steps. The nodes of the path are distinct and blocked. Any
other blocked node waits for each of its successors, which are blocked and are not the start. And
nothing waits for a node that is not blocked. -/
structure Coherent (next : α → List α) (start : α) (path : List α) (search : CircuitSearch α) :
    Prop where
  distinct : path.Nodup
  path_blocked : ∀ node ∈ path, node ∈ search.blocked
  held : ∀ node ∈ search.blocked, node ∉ path → ∀ after ∈ next node,
    after ≠ start ∧ after ∈ search.blocked ∧ node ∈ search.waitersOf after
  waited : ∀ node, ∀ waiter ∈ search.waitersOf node, node ∈ search.blocked

/-- Blocked nodes stay blocked, and none of them begins to wait. -/
structure Grows (before after : CircuitSearch α) : Prop where
  blocked : ∀ node ∈ before.blocked, node ∈ after.blocked
  waiters : ∀ node, ∀ waiter ∈ after.waitersOf node,
    waiter ∈ before.waitersOf node ∨ waiter ∉ before.blocked

variable {next : α → List α} {start : α} {path : List α} {before : CircuitSearch α}

theorem coherent_initial (next : α → List α) (start : α) :
    Coherent next start [] initial where
  distinct := .nil
  path_blocked := by simp
  held node blocked := absurd blocked OrderedSet.not_mem_empty
  waited node waiter waits := by
    rw [waitersOf_initial] at waits
    cases waits

theorem Grows.trans {middle after : CircuitSearch α} (first : Grows before middle)
    (second : Grows middle after) : Grows before after where
  blocked node blocked := second.blocked node (first.blocked node blocked)
  waiters node waiter waits := by
    rcases second.waiters node waiter waits with old | free
    · exact first.waiters node waiter old
    · exact .inr fun blocked => free (first.blocked waiter blocked)

/-- A cascade from a node that was free before the call reaches no node that was blocked then. -/
theorem Grows.unblock (grows : Grows before search) (coherent : Coherent next start path before)
    (free : node ∉ before.blocked) (blocked : node ∈ search.blocked) :
    Grows before (search.unblock node) := by
  rw [unblock_eq_cascade blocked]
  constructor
  · intro other blockedBefore
    by_contra gone
    refine released_induction (· ∉ before.blocked) ?_ ?_ (grows.blocked other blockedBefore) gone
      blockedBefore
    · intro target member
      exact List.mem_singleton.mp member ▸ free
    · intro target freeBefore waiter waits
      rcases grows.waiters target waiter waits with old | freeWaiter
      · exact absurd (coherent.waited target waiter old) freeBefore
      · exact freeWaiter
  · intro target waiter waits
    rw [waitersOf_cascade] at waits
    split at waits
    · cases waits
    · exact grows.waiters target waiter waits

/-- When the last node of the path is released, everything that waits for a released node is
released too, so whoever is still blocked still waits. -/
theorem Coherent.unblock (coherent : Coherent next start (path ++ [node]) search)
    (kept : ∀ other ∈ path, other ∈ (search.unblock node).blocked) :
    Coherent next start path (search.unblock node) := by
  have blocked := coherent.path_blocked node (by simp)
  rw [unblock_eq_cascade blocked] at kept ⊢
  refine ⟨(List.nodup_append.mp coherent.distinct).1, kept, ?_, ?_⟩
  · intro other still outside after step
    obtain ⟨blockedBefore, notPending⟩ := mem_blocked_of_cascade still
    have apart : other ∉ path ++ [node] := by
      rw [List.mem_append]
      exact not_or.mpr ⟨outside, notPending⟩
    obtain ⟨notStart, afterBlocked, waits⟩ := coherent.held other blockedBefore apart after step
    have afterStill : after ∈ (search.cascade [node]).blocked := by
      by_contra gone
      exact waiter_released afterBlocked gone waits still
    refine ⟨notStart, afterStill, ?_⟩
    rwa [waitersOf_cascade, if_neg fun released => released.2 afterStill]
  · intro target waiter waits
    rw [waitersOf_cascade] at waits
    split at waits
    · cases waits
    · rename_i notReleased
      by_contra gone
      exact notReleased ⟨coherent.waited target waiter waits, gone⟩

/-- No way that avoids the path leads from a blocked node back to the start. -/
theorem Coherent.closings_eq_nil (coherent : Coherent next start path search)
    {untouched : OrderedSet α} (apart : ∀ other ∈ untouched, other ∉ path) {walked : List α}
    (blocked : node ∈ search.blocked) (notStart : node ≠ start) :
    Graph.closings next start untouched walked node = [] := by
  fun_induction Graph.closings next start untouched walked node with
  | case1 => exact absurd rfl notStart
  | case2 untouched walked node _ fresh ih =>
    apply List.flatMap_eq_nil_iff.mpr
    intro after step
    obtain ⟨afterNotStart, afterBlocked, _⟩ := coherent.held node blocked (apart node fresh) after step
    exact ih after (fun other member => apart other (OrderedSet.mem_erase.mp member).1)
      afterBlocked afterNotStart
  | case3 => rfl

section Order

variable [LE α] [DecidableLT α] [Std.IsLinearOrder α] [Std.LawfulOrderLT α]

theorem grows_enter : Grows search (search.enter node) :=
  ⟨fun _ blocked => mem_blocked_enter.mpr (.inr blocked), fun _ _ waits => .inl waits⟩

theorem Coherent.enter (coherent : Coherent next start path search)
    (free : node ∉ search.blocked) : Coherent next start (path ++ [node]) (search.enter node) where
  distinct := by
    refine List.nodup_append.mpr ⟨coherent.distinct, List.nodup_singleton _, ?_⟩
    rintro other member _ last rfl
    exact free (List.mem_singleton.mp last ▸ coherent.path_blocked other member)
  path_blocked other member := by
    rcases List.mem_append.mp member with earlier | last
    · exact mem_blocked_enter.mpr (.inr (coherent.path_blocked other earlier))
    · exact mem_blocked_enter.mpr (.inl (List.mem_singleton.mp last))
  held other blocked outside after step := by
    obtain ⟨outside, different⟩ := not_or.mp (List.mem_append.not.mp outside)
    have blockedBefore := (mem_blocked_enter.mp blocked).resolve_left (by simpa using different)
    obtain ⟨notStart, afterBlocked, waits⟩ := coherent.held other blockedBefore outside after step
    exact ⟨notStart, mem_blocked_enter.mpr (.inr afterBlocked), waits⟩
  waited target waiter waits := mem_blocked_enter.mpr (.inr (coherent.waited target waiter waits))

/-- A path that can be extended has not yet used up the field. -/
theorem length_lt_of_free (coherent : Coherent next start path search) (free : node ∉ search.blocked)
    {field : OrderedSet α} (inside : ∀ other ∈ path ++ [node], other ∈ field) :
    path.length < field.size := by
  have bound := (List.subperm_of_subset (coherent.enter free).distinct inside).length_le
  rwa [List.length_append, List.length_singleton] at bound

theorem Grows.defer (grows : Grows before search) (free : node ∉ before.blocked)
    {successors : List α} : Grows before (search.defer node successors) where
  blocked := grows.blocked
  waiters target waiter waits := by
    rcases mem_waitersOf_defer.mp waits with old | ⟨rfl, _⟩
    · exact grows.waiters target waiter old
    · exact .inr free

/-- A node whose successors are all blocked may leave the path and stay blocked. -/
theorem Coherent.defer (coherent : Coherent next start (path ++ [node]) search)
    (stuck : ∀ after ∈ next node, after ≠ start ∧ after ∈ search.blocked) :
    Coherent next start path (search.defer node (next node)) where
  distinct := (List.nodup_append.mp coherent.distinct).1
  path_blocked other member := coherent.path_blocked other (List.mem_append_left _ member)
  held other blocked outside after step := by
    by_cases same : other = node
    · subst same
      obtain ⟨notStart, afterBlocked⟩ := stuck after step
      exact ⟨notStart, afterBlocked, mem_waitersOf_defer.mpr (.inr ⟨rfl, step⟩)⟩
    · have apart : other ∉ path ++ [node] := by simp [outside, same]
      obtain ⟨notStart, afterBlocked, waits⟩ := coherent.held other blocked apart after step
      exact ⟨notStart, afterBlocked, mem_waitersOf_defer.mpr (.inl waits)⟩
  waited target waiter waits := by
    rcases mem_waitersOf_defer.mp waits with old | ⟨rfl, step⟩
    · exact coherent.waited target waiter old
    · exact (stuck target step).2

end Order

/-! ## Calls compared with the plain search -/

/-- The outcome of looking at the targets from the end of a path: the ways to close the path that
plain search knows have been found, and a target stays blocked when there are none. -/
structure Explores (next : α → List α) (start : α) (path targets : List α)
    (before : CircuitSearch α) (ways : List (List α)) (outcome : Bool × CircuitSearch α) :
    Prop where
  coherent : Coherent next start path outcome.2
  grows : Grows before outcome.2
  found : outcome.2.found = ways.reverse ++ before.found
  closed : outcome.1 = false ↔ ways = []
  stuck : outcome.1 = false → ∀ target ∈ targets, target ∈ outcome.2.blocked

variable {untouched : OrderedSet α} {descend : α → CircuitSearch α → Bool × CircuitSearch α}

/-- One more target: the start closes the path, a blocked node cannot, and any other node is left
to its own call. -/
theorem Explores.visit {seen : List α} {ways : List (List α)} {state : Bool × CircuitSearch α}
    (explored : Explores next start path seen before ways state)
    (apart : ∀ other ∈ untouched, other ∉ path)
    (descends : node ≠ start → node ∉ state.2.blocked →
      Explores next start path [node] state.2 (Graph.closings next start untouched path node)
        (descend node state.2)) :
    Explores next start path (seen ++ [node]) before
      (ways ++ Graph.closings next start untouched path node)
      (visit start path descend state node) := by
  obtain ⟨coherent, grows, found, closed, stuck⟩ := explored
  unfold CircuitSearch.visit
  split
  · rename_i isStart
    subst isStart
    refine ⟨⟨coherent.distinct, coherent.path_blocked, coherent.held, coherent.waited⟩,
      ⟨grows.blocked, grows.waiters⟩, ?_, by simp, by simp⟩
    simp [found]
  · rename_i notStart
    split
    · rename_i blocked
      rw [coherent.closings_eq_nil apart blocked notStart, List.append_nil]
      refine ⟨coherent, grows, found, closed, fun none target member => ?_⟩
      rcases List.mem_append.mp member with earlier | last
      · exact stuck none target earlier
      · exact List.mem_singleton.mp last ▸ blocked
    · rename_i free
      obtain ⟨inner, growsInner, foundInner, closedInner, stuckInner⟩ := descends notStart free
      refine ⟨inner, grows.trans growsInner, ?_, ?_, fun none target member => ?_⟩
      · rw [foundInner, found, List.reverse_append, List.append_assoc]
      · rw [Bool.or_eq_false_iff, closed, closedInner, List.append_eq_nil_iff]
      · obtain ⟨noneBefore, noneInner⟩ := Bool.or_eq_false_iff.mp none
        rcases List.mem_append.mp member with earlier | last
        · exact growsInner.blocked target (stuck noneBefore target earlier)
        · exact stuckInner noneInner target last

/-- All targets, one after the other. -/
theorem Explores.foldl_visit {targets seen : List α} {ways : List (List α)}
    {state : Bool × CircuitSearch α} (explored : Explores next start path seen before ways state)
    (apart : ∀ other ∈ untouched, other ∉ path)
    (descends : ∀ target ∈ targets, ∀ search, Coherent next start path search → target ≠ start →
      target ∉ search.blocked → Explores next start path [target] search
        (Graph.closings next start untouched path target) (descend target search)) :
    Explores next start path (seen ++ targets) before
      (ways ++ targets.flatMap (Graph.closings next start untouched path))
      (targets.foldl (CircuitSearch.visit start path descend) state) := by
  induction targets generalizing seen ways state with
  | nil => simpa using explored
  | cons head rest ih =>
    have step := explored.visit apart fun notStart free =>
      descends head (List.mem_cons_self ..) state.2 explored.coherent notStart free
    have run := ih step fun target member => descends target (List.mem_cons_of_mem _ member)
    simpa only [List.append_assoc, List.singleton_append, List.flatMap_cons, List.foldl_cons]
      using run

variable [LE α] [DecidableLT α] [Std.IsLinearOrder α] [Std.LawfulOrderLT α]

/-- The end of a call: the node is released when some way closed, and else it stays blocked and
waits for its successors. -/
theorem Explores.leave {outcome : Bool × CircuitSearch α} (coherent : Coherent next start path search)
    (free : node ∉ search.blocked)
    (searched : Explores next start (path ++ [node]) (next node) search
      ((next node).flatMap (Graph.closings next start untouched (path ++ [node]))) outcome) :
    Explores next start path [node] search
      ((next node).flatMap (Graph.closings next start untouched (path ++ [node])))
      (if outcome.1 then (true, outcome.2.unblock node)
      else (false, outcome.2.defer node (next node))) := by
  obtain ⟨within, grows, found, closed, stuck⟩ := searched
  have blocked := within.path_blocked node (by simp)
  split
  · rename_i someWay
    have released := grows.unblock coherent free blocked
    have kept : ∀ other ∈ path, other ∈ (outcome.2.unblock node).blocked :=
      fun other member => released.blocked other (coherent.path_blocked other member)
    refine ⟨within.unblock kept, released, ?_, by rw [← closed, someWay], by simp⟩
    rw [unblock_eq_cascade blocked, found_cascade, found]
  · rename_i noWay
    rw [Bool.not_eq_true] at noWay
    refine ⟨within.defer fun after step => ⟨?_, stuck noWay after step⟩, grows.defer free, found,
      by rw [← closed, noWay], ?_⟩
    · rintro rfl
      simpa using List.flatMap_eq_nil_iff.mp (closed.mp noWay) after step
    · intro _ target member
      exact List.mem_singleton.mp member ▸ blocked

/-- A call finds the ways to close its path that plain search finds through the nodes of the field
that are not on the path. The induction is on the depth, which no path of the field exhausts. -/
theorem circuit_explores {field : OrderedSet α}
    (stays : ∀ source, ∀ target ∈ next source, target ∈ field) {depth : Nat} {path : List α}
    {node : α} {search : CircuitSearch α} (coherent : Coherent next start path search)
    (free : node ∉ search.blocked) (inside : ∀ other ∈ path ++ [node], other ∈ field)
    (room : field.size ≤ path.length + depth) :
    Explores next start path [node] search
      ((next node).flatMap
        (Graph.closings next start (field.filter (· ∉ path ++ [node])) (path ++ [node])))
      (circuit next start depth path node search) := by
  induction depth generalizing path node search with
  | zero => exact absurd (length_lt_of_free coherent free inside) (by omega)
  | succ depth ih =>
    have begun : Explores next start (path ++ [node]) [] search [] (false, search.enter node) :=
      ⟨coherent.enter free, grows_enter, rfl, by simp, by simp⟩
    have apart : ∀ other ∈ field.filter (· ∉ path ++ [node]), other ∉ path ++ [node] :=
      fun other member => by simpa using (OrderedSet.mem_filter.mp member).2
    have descends : ∀ target ∈ next node, ∀ inner, Coherent next start (path ++ [node]) inner →
        target ≠ start → target ∉ inner.blocked →
        Explores next start (path ++ [node]) [target] inner
          (Graph.closings next start (field.filter (· ∉ path ++ [node])) (path ++ [node]) target)
          (circuit next start depth (path ++ [node]) target inner) := by
      intro target step inner coherentInner notStart freeInner
      have outside : target ∉ path ++ [node] := fun member =>
        freeInner (coherentInner.path_blocked target member)
      have fresh : target ∈ field.filter (· ∉ path ++ [node]) :=
        OrderedSet.mem_filter.mpr ⟨stays node target step, by simpa using outside⟩
      have rest : (field.filter (· ∉ path ++ [node])).erase target =
          field.filter (· ∉ path ++ [node] ++ [target]) := by
        ext other
        simp only [OrderedSet.mem_erase, OrderedSet.mem_filter, List.mem_append,
          List.mem_singleton, decide_eq_true_eq]
        tauto
      rw [Graph.closings_of_mem notStart fresh, rest]
      apply ih coherentInner freeInner
      · intro other member
        rcases List.mem_append.mp member with earlier | last
        · exact inside other earlier
        · exact List.mem_singleton.mp last ▸ stays node target step
      · rw [List.length_append, List.length_singleton]
        omega
    rw [circuit]
    apply Explores.leave coherent free
    simpa only [List.nil_append] using begun.foldl_visit apart descends

end CircuitSearch

end ProcessFlow
