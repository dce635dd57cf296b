import Mathlib.Data.List.Forall2

/-! # Lists computed item by item

A computation that is carried out for each item of a list in turn gives one value for each item, or
it gives the failure of the first item that fails.
-/

namespace ProcessFlow

variable {α β ε : Type} {compute : α → Except ε β} {items : List α} {values : List β}

/-- The failure of an outcome that is one. -/
def failure? : Except ε β → Option ε
  | .ok _ => none
  | .error failure => some failure

theorem failure?_eq_none_iff {outcome : Except ε β} :
    failure? outcome = none ↔ ∃ value, outcome = .ok value := by
  cases outcome <;> simp [failure?]

theorem failure?_eq_some_iff {outcome : Except ε β} {failure : ε} :
    failure? outcome = some failure ↔ outcome = .error failure := by
  cases outcome <;> simp [failure?]

theorem failure?_map {γ : Type} (change : β → γ) (outcome : Except ε β) :
    failure? (outcome.map change) = failure? outcome := by
  cases outcome <;> rfl

theorem mapM_eq_ok_iff : items.mapM compute = .ok values ↔
    List.Forall₂ (fun item value => compute item = .ok value) items values := by
  induction items generalizing values with
  | nil =>
    rw [List.mapM_nil, List.forall₂_nil_left_iff]
    constructor
    · intro computed
      cases computed
      rfl
    · rintro rfl
      rfl
  | cons item rest ih =>
    rw [List.mapM_cons, List.forall₂_cons_left_iff]
    cases first : compute item with
    | error failure => exact ⟨nofun, fun ⟨_, _, found, _⟩ => nomatch found⟩
    | ok value =>
      cases others : rest.mapM compute with
      | error failure =>
        refine ⟨nofun, fun ⟨_, tail, _, found, _⟩ => ?_⟩
        exact nomatch others.symm.trans (ih.mpr found)
      | ok tail =>
        constructor
        · rintro computed
          cases computed
          exact ⟨value, tail, rfl, ih.mp others, rfl⟩
        · rintro ⟨other, rest', found, tailFound, rfl⟩
          cases found
          cases others.symm.trans (ih.mpr tailFound)
          rfl

theorem mapM_of_ok {value : α → β} (all : ∀ item ∈ items, compute item = .ok (value item)) :
    items.mapM compute = .ok (items.map value) := by
  rw [mapM_eq_ok_iff, List.forall₂_map_right_iff, List.forall₂_same]
  exact all

/-- A list fails as the first of its items that fails. -/
theorem failure?_mapM (compute : α → Except ε β) (items : List α) :
    failure? (items.mapM compute) = items.findSome? fun item => failure? (compute item) := by
  induction items with
  | nil => rfl
  | cons item rest ih =>
    rw [List.mapM_cons, List.findSome?_cons, ← ih]
    cases compute item with
    | error failure => rfl
    | ok value => cases rest.mapM compute <;> rfl

/-- A pass over a list fails at the first item whose step fails. -/
theorem foldlM_eq_error_iff {σ : Type} {step : σ → α → Except ε σ} {start : σ} {failure : ε} :
    items.foldlM step start = .error failure ↔
      ∃ before item after state, items = before ++ item :: after ∧
        before.foldlM step start = .ok state ∧ step state item = .error failure := by
  induction items generalizing start with
  | nil => exact ⟨nofun, fun ⟨before, _, _, _, shape, _⟩ => by cases before <;> cases shape⟩
  | cons first rest ih =>
    rw [List.foldlM_cons]
    constructor
    · intro failed
      cases stepped : step start first with
      | error other =>
        rw [stepped] at failed
        cases failed
        exact ⟨[], first, rest, start, rfl, rfl, stepped⟩
      | ok next =>
        rw [stepped] at failed
        obtain ⟨before, item, after, state, rfl, passed, atItem⟩ := ih.mp failed
        refine ⟨first :: before, item, after, state, rfl, ?_, atItem⟩
        rw [List.foldlM_cons, stepped]
        exact passed
    · rintro ⟨before, item, after, state, shape, passed, atItem⟩
      cases before with
      | nil =>
        cases shape
        cases passed
        rw [atItem]
        rfl
      | cons head others =>
        cases shape
        rw [List.foldlM_cons] at passed
        cases stepped : step start first with
        | error other =>
          rw [stepped] at passed
          cases passed
        | ok next =>
          rw [stepped] at passed
          exact ih.mpr ⟨others, item, after, state, rfl, passed, atItem⟩

/-- What is found first in lists that are joined is what is found first in the first list where
anything is found. -/
theorem findSome?_flatMap {γ : Type} (pieces : α → List β) (find : β → Option γ) (items : List α) :
    (items.flatMap pieces).findSome? find = items.findSome? fun item => (pieces item).findSome? find := by
  induction items with
  | nil => rfl
  | cons item rest ih =>
    rw [List.flatMap_cons, List.findSome?_append, List.findSome?_cons, ih]
    cases (pieces item).findSome? find <;> rfl

/-- Each value of related lists is related to an item. -/
theorem exists_of_forall₂ {related : α → β → Prop} (all : List.Forall₂ related items values)
    {value : β} (member : value ∈ values) : ∃ item ∈ items, related item value := by
  induction all with
  | nil => cases member
  | cons first _ ih =>
    rcases List.mem_cons.mp member with rfl | later
    · exact ⟨_, List.mem_cons_self .., first⟩
    · obtain ⟨item, isItem, isRelated⟩ := ih later
      exact ⟨item, List.mem_cons_of_mem _ isItem, isRelated⟩

end ProcessFlow
