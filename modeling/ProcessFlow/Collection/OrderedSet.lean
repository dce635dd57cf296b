import ProcessFlow.Collection.Order

/-! # Sets kept in ascending order

A finite set is the strictly ascending list of its members. Two sets with the same members are
therefore equal, and every traversal runs in the order of the member type.
-/

namespace ProcessFlow

section Insertion

variable {α : Type} [LT α] [DecidableLT α]

/-- Put a value at its place in an ascending list, unless it is there already. -/
def insertAscending (value : α) : List α → List α
  | [] => [value]
  | head :: rest =>
    if value < head then value :: head :: rest
    else if head < value then head :: insertAscending value rest
    else head :: rest

end Insertion

section Order

variable {α : Type} [LE α] [LT α] [DecidableLT α] [Std.IsLinearOrder α] [Std.LawfulOrderLT α]

theorem mem_insertAscending {value other : α} {list : List α} :
    other ∈ insertAscending value list ↔ other = value ∨ other ∈ list := by
  induction list with
  | nil => simp [insertAscending]
  | cons head rest ih =>
    simp only [insertAscending]
    split
    · simp
    · rename_i notLess
      split
      · simp only [List.mem_cons, ih, or_left_comm]
      · rename_i notGreater
        have same : value = head := Std.le_antisymm (Std.not_lt.mp notGreater) (Std.not_lt.mp notLess)
        simp [same]

theorem pairwise_insertAscending {value : α} {list : List α}
    (ascending : list.Pairwise (· < ·)) : (insertAscending value list).Pairwise (· < ·) := by
  induction list with
  | nil => simp [insertAscending]
  | cons head rest ih =>
    obtain ⟨least, tail⟩ := List.pairwise_cons.mp ascending
    simp only [insertAscending]
    split
    · rename_i less
      refine List.pairwise_cons.mpr ⟨fun other member => ?_, ascending⟩
      rcases List.mem_cons.mp member with rfl | later
      · exact less
      · exact Std.lt_trans less (least other later)
    · split
      · refine List.pairwise_cons.mpr ⟨fun other member => ?_, ih tail⟩
        rcases mem_insertAscending.mp member with rfl | later
        · assumption
        · exact least other later
      · exact ascending

end Order

/-- A finite set, held as the ascending list of its members. -/
structure OrderedSet (α : Type) [LT α] where
  toList : List α
  ascending : toList.Pairwise (· < ·)

namespace OrderedSet

variable {α : Type}

instance [LT α] : Membership α (OrderedSet α) := ⟨fun set value => value ∈ set.toList⟩

@[simp] theorem mem_toList [LT α] {set : OrderedSet α} {value : α} :
    value ∈ set.toList ↔ value ∈ set := Iff.rfl

instance [LT α] [DecidableEq α] (value : α) (set : OrderedSet α) : Decidable (value ∈ set) :=
  inferInstanceAs (Decidable (value ∈ set.toList))

instance [LT α] [DecidableEq α] : DecidableEq (OrderedSet α) := fun left right =>
  match decEq left.toList right.toList with
  | isTrue same => isTrue (by cases left; cases right; cases same; rfl)
  | isFalse different => isFalse (fun same => different (congrArg toList same))

def empty [LT α] : OrderedSet α := ⟨[], .nil⟩

instance [LT α] : EmptyCollection (OrderedSet α) := ⟨empty⟩

instance [LT α] : Inhabited (OrderedSet α) := ⟨empty⟩

@[simp] theorem not_mem_empty [LT α] {value : α} : value ∉ (∅ : OrderedSet α) := List.not_mem_nil

def size [LT α] (set : OrderedSet α) : Nat := set.toList.length

def isEmpty [LT α] (set : OrderedSet α) : Bool := set.toList.isEmpty

def filter [LT α] (set : OrderedSet α) (keep : α → Bool) : OrderedSet α :=
  ⟨set.toList.filter keep, set.ascending.filter keep⟩

def erase [LT α] [DecidableEq α] (set : OrderedSet α) (value : α) : OrderedSet α :=
  set.filter (· ≠ value)

theorem mem_filter [LT α] {set : OrderedSet α} {keep : α → Bool} {value : α} :
    value ∈ set.filter keep ↔ value ∈ set ∧ keep value := List.mem_filter

theorem mem_erase [LT α] [DecidableEq α] {set : OrderedSet α} {value other : α} :
    other ∈ set.erase value ↔ other ∈ set ∧ other ≠ value := by
  simp [erase, mem_filter]

theorem size_filter_le [LT α] (set : OrderedSet α) (keep : α → Bool) :
    (set.filter keep).size ≤ set.size := List.length_filter_le ..

/-- Taking out a member leaves fewer members. -/
theorem size_erase_lt [LT α] [DecidableEq α] {set : OrderedSet α} {value : α}
    (member : value ∈ set) : (set.erase value).size < set.size :=
  List.length_filter_lt_length_iff_exists.mpr ⟨value, member, by simp⟩

variable [LE α] [LT α] [DecidableLT α] [Std.IsLinearOrder α] [Std.LawfulOrderLT α]

omit [DecidableLT α] [Std.IsLinearOrder α] in
@[ext] theorem ext {left right : OrderedSet α} (same : ∀ value, value ∈ left ↔ value ∈ right) :
    left = right := by
  have lists := eq_of_pairwise Std.not_gt_of_lt left.ascending right.ascending same
  cases left
  cases right
  cases lists
  rfl

omit [DecidableLT α] [Std.IsLinearOrder α] in
/-- The first member with a result is the least one. -/
theorem findSome?_toList_eq_some_iff {β : Type} {set : OrderedSet α} {result? : α → Option β}
    {result : β} : set.toList.findSome? result? = some result ↔
      ∃ value ∈ set, result? value = some result ∧
        ∀ lesser ∈ set, lesser < value → result? lesser = none :=
  findSome?_eq_some_iff_of_pairwise Std.not_gt_of_lt set.ascending

def insert (set : OrderedSet α) (value : α) : OrderedSet α :=
  ⟨insertAscending value set.toList, pairwise_insertAscending set.ascending⟩

theorem mem_insert {set : OrderedSet α} {value other : α} :
    other ∈ set.insert value ↔ other = value ∨ other ∈ set := mem_insertAscending

def ofList (values : List α) : OrderedSet α := values.foldl insert empty

theorem mem_foldl_insert {values : List α} {set : OrderedSet α} {value : α} :
    value ∈ values.foldl insert set ↔ value ∈ values ∨ value ∈ set := by
  induction values generalizing set with
  | nil => simp
  | cons head rest ih => simp only [List.foldl_cons, ih, mem_insert, List.mem_cons, or_left_comm, or_assoc]

theorem mem_ofList {values : List α} {value : α} : value ∈ ofList values ↔ value ∈ values := by
  rw [ofList, mem_foldl_insert]
  exact or_iff_left List.not_mem_nil

end OrderedSet

end ProcessFlow
