import ProcessFlow.Collection.Order

/-! # Tables kept in ascending key order

A finite table is the list of its entries with strictly ascending keys. Tables that answer every
look-up alike are equal, and every traversal runs in key order.
-/

namespace ProcessFlow

/-- A finite table, held as its entries in ascending key order. -/
structure OrderedMap (κ β : Type) [LT κ] where
  entries : List (κ × β)
  ascending : entries.Pairwise (fun left right => left.1 < right.1)

namespace OrderedMap

variable {κ β γ : Type}

instance [LT κ] [DecidableEq κ] [DecidableEq β] : DecidableEq (OrderedMap κ β) := fun left right =>
  match decEq left.entries right.entries with
  | isTrue same => isTrue (by cases left; cases right; cases same; rfl)
  | isFalse different => isFalse (fun same => different (congrArg entries same))

def empty [LT κ] : OrderedMap κ β := ⟨[], .nil⟩

instance [LT κ] : EmptyCollection (OrderedMap κ β) := ⟨empty⟩

instance [LT κ] : Inhabited (OrderedMap κ β) := ⟨empty⟩

def size [LT κ] (map : OrderedMap κ β) : Nat := map.entries.length

def isEmpty [LT κ] (map : OrderedMap κ β) : Bool := map.entries.isEmpty

def keys [LT κ] (map : OrderedMap κ β) : List κ := map.entries.map Prod.fst

def values [LT κ] (map : OrderedMap κ β) : List β := map.entries.map Prod.snd

instance [LT κ] : Membership κ (OrderedMap κ β) := ⟨fun map key => key ∈ map.keys⟩

instance [LT κ] [DecidableEq κ] (key : κ) (map : OrderedMap κ β) : Decidable (key ∈ map) :=
  inferInstanceAs (Decidable (key ∈ map.keys))

theorem mem_keys [LT κ] {map : OrderedMap κ β} {key : κ} : key ∈ map.keys ↔ key ∈ map := Iff.rfl

theorem mem_iff_exists [LT κ] {map : OrderedMap κ β} {key : κ} :
    key ∈ map ↔ ∃ value, (key, value) ∈ map.entries := by
  rw [← mem_keys, keys, List.mem_map]
  exact ⟨fun ⟨⟨_, value⟩, member, rfl⟩ => ⟨value, member⟩, fun ⟨value, member⟩ => ⟨_, member, rfl⟩⟩

/-- Keys in order that have values stay in order beside them. -/
theorem pairwise_filterMap_keys [LT κ] {keys : List κ} (order : keys.Pairwise (· < ·))
    (value? : κ → Option β) :
    (keys.filterMap fun key => (value? key).map fun value => (key, value)).Pairwise
      fun left right => left.1 < right.1 := by
  refine order.filterMap _ fun first second less => ?_
  intro entry isFirst other isSecond
  obtain ⟨_, _, rfl⟩ := Option.map_eq_some_iff.mp isFirst
  obtain ⟨_, _, rfl⟩ := Option.map_eq_some_iff.mp isSecond
  exact less

def mapValues [LT κ] (map : OrderedMap κ β) (change : κ → β → γ) : OrderedMap κ γ :=
  ⟨map.entries.map fun entry => (entry.1, change entry.1 entry.2),
    List.pairwise_map.mpr map.ascending⟩

@[simp] theorem keys_mapValues [LT κ] (map : OrderedMap κ β) (change : κ → β → γ) :
    (map.mapValues change).keys = map.keys := by
  simp [keys, mapValues]

def filter [LT κ] (map : OrderedMap κ β) (keep : κ → β → Bool) : OrderedMap κ β :=
  ⟨map.entries.filter fun entry => keep entry.1 entry.2, map.ascending.filter _⟩

section Lookup

variable [LT κ] [DecidableEq κ]

def get? (map : OrderedMap κ β) (key : κ) : Option β :=
  (map.entries.find? fun entry => entry.1 = key).map Prod.snd

def getD (map : OrderedMap κ β) (key : κ) (default : β) : β := (map.get? key).getD default

def erase (map : OrderedMap κ β) (key : κ) : OrderedMap κ β := map.filter fun other _ => other ≠ key

/-- A look-up finds nothing under an erased key, and the older values under all others. -/
theorem get?_erase (map : OrderedMap κ β) (key other : κ) :
    (map.erase key).get? other = if other = key then none else map.get? other := by
  simp only [get?, erase, filter, List.find?_filter]
  split
  · rename_i same
    rw [List.find?_eq_none.mpr, Option.map_none]
    intro entry _
    simp [same]
  · rename_i different
    congr 2
    funext entry
    by_cases found : entry.1 = other
    · simp [found, different]
    · simp [found]

theorem get?_mapValues (map : OrderedMap κ β) (change : κ → β → γ) (key : κ) :
    (map.mapValues change).get? key = (map.get? key).map (change key) := by
  simp only [get?, mapValues, List.find?_map, Function.comp_def, Option.map_map]
  apply Option.map_congr
  intro entry found
  have same : entry.1 = key := by simpa using List.find?_some found
  rw [same]

end Lookup

section Order

variable [LE κ] [LT κ] [DecidableLT κ] [Std.IsLinearOrder κ] [Std.LawfulOrderLT κ]

/-- Put an entry at its place, over the entry of the same key if there is one. -/
def placeEntry (key : κ) (value : β) : List (κ × β) → List (κ × β)
  | [] => [(key, value)]
  | head :: rest =>
    if key < head.1 then (key, value) :: head :: rest
    else if head.1 < key then head :: placeEntry key value rest
    else (key, value) :: rest

omit [LE κ] [Std.IsLinearOrder κ] [Std.LawfulOrderLT κ] in
theorem mem_placeEntry {key : κ} {value : β} {list : List (κ × β)} {entry : κ × β}
    (member : entry ∈ placeEntry key value list) : entry = (key, value) ∨ entry ∈ list := by
  induction list with
  | nil => simpa [placeEntry] using member
  | cons head rest ih =>
    simp only [placeEntry] at member
    split at member
    · exact List.mem_cons.mp member
    · split at member
      · rcases List.mem_cons.mp member with rfl | later
        · exact .inr (List.mem_cons_self ..)
        · exact (ih later).imp_right (List.mem_cons_of_mem _)
      · exact (List.mem_cons.mp member).imp_right (List.mem_cons_of_mem _)

theorem pairwise_placeEntry {key : κ} {value : β} {list : List (κ × β)}
    (ascending : list.Pairwise fun left right => left.1 < right.1) :
    (placeEntry key value list).Pairwise fun left right => left.1 < right.1 := by
  induction list with
  | nil => simp [placeEntry]
  | cons head rest ih =>
    obtain ⟨least, tail⟩ := List.pairwise_cons.mp ascending
    simp only [placeEntry]
    split
    · rename_i less
      refine List.pairwise_cons.mpr ⟨fun other member => ?_, ascending⟩
      rcases List.mem_cons.mp member with rfl | later
      · exact less
      · exact Std.lt_trans less (least other later)
    · rename_i notLess
      split
      · refine List.pairwise_cons.mpr ⟨fun other member => ?_, ih tail⟩
        rcases mem_placeEntry member with rfl | later
        · assumption
        · exact least other later
      · rename_i notGreater
        have same : key = head.1 :=
          Std.le_antisymm (Std.not_lt.mp notGreater) (Std.not_lt.mp notLess)
        subst same
        exact List.pairwise_cons.mpr ⟨least, tail⟩

/-- Store a value under a key, over the value that was there. -/
def insert (map : OrderedMap κ β) (key : κ) (value : β) : OrderedMap κ β :=
  ⟨placeEntry key value map.entries, pairwise_placeEntry map.ascending⟩

/-- The table of a list of entries; of several entries with one key the last one stays. -/
def ofList (entries : List (κ × β)) : OrderedMap κ β :=
  entries.foldl (fun map entry => map.insert entry.1 entry.2) empty

variable [DecidableEq κ]

/-- A look-up finds the value just stored, and the older values under all other keys. -/
theorem get?_insert (map : OrderedMap κ β) (key other : κ) (value : β) :
    (map.insert key value).get? other = if other = key then some value else map.get? other := by
  obtain ⟨entries, ascending⟩ := map
  simp only [get?, insert]
  clear ascending
  induction entries with
  | nil => by_cases same : other = key <;> simp [placeEntry, same, eq_comm]
  | cons head rest ih =>
    simp only [placeEntry]
    split
    · by_cases same : other = key <;> simp [same, eq_comm]
    · rename_i notLess
      split
      · rename_i greater
        have apart : head.1 ≠ key := Std.ne_of_lt greater
        by_cases here : head.1 = other
        · have different : other ≠ key := here ▸ apart
          simp [here, different]
        · simpa [here] using ih
      · rename_i notGreater
        have same : key = head.1 :=
          Std.le_antisymm (Std.not_lt.mp notGreater) (Std.not_lt.mp notLess)
        by_cases here : other = key <;> simp [here, ← same, eq_comm]

omit [DecidableLT κ] [Std.IsLinearOrder κ] in
/-- An entry is what the look-up of its key finds. -/
theorem get?_eq_some_iff {map : OrderedMap κ β} {key : κ} {value : β} :
    map.get? key = some value ↔ (key, value) ∈ map.entries := by
  obtain ⟨entries, ascending⟩ := map
  simp only [get?]
  induction entries with
  | nil => simp
  | cons head rest ih =>
    obtain ⟨least, tail⟩ := List.pairwise_cons.mp ascending
    have ih := ih tail
    by_cases same : head.1 = key
    · simp only [List.find?_cons, same, decide_true, Option.map_some, Option.some.injEq,
        List.mem_cons]
      constructor
      · rintro rfl
        exact .inl (by rw [← same])
      · rintro (found | later)
        · rw [← found]
        · have above := least (key, value) later
          rw [same] at above
          exact absurd above Std.lt_irrefl
    · simp only [List.find?_cons, same, decide_false, List.mem_cons]
      rw [ih]
      constructor
      · exact .inr
      · rintro (found | later)
        · exact absurd (by rw [← found]) same
        · exact later

omit [DecidableLT κ] [Std.IsLinearOrder κ] in
/-- A key is absent exactly when its look-up finds nothing. -/
theorem get?_eq_none_iff {map : OrderedMap κ β} {key : κ} : map.get? key = none ↔ key ∉ map := by
  rw [Option.eq_none_iff_forall_not_mem, mem_iff_exists, not_exists]
  exact forall_congr' fun value => not_congr get?_eq_some_iff

omit [DecidableLT κ] [Std.IsLinearOrder κ] in
/-- A table of ascending keys beside a function of them holds the value of the function under each
key. -/
theorem getD_of_keys {keys : List κ} (order : keys.Pairwise (· < ·)) (value : κ → β) (key : κ)
    (default : β) :
    OrderedMap.getD ⟨keys.map fun key => (key, value key), List.pairwise_map.mpr order⟩ key default =
      if key ∈ keys then value key else default := by
  split
  · rename_i member
    rw [getD, get?_eq_some_iff.mpr (List.mem_map_of_mem member), Option.getD_some]
  · rename_i absent
    rw [getD, get?_eq_none_iff.mpr, Option.getD_none]
    simpa [← mem_keys, OrderedMap.keys] using absent

/-- A table made of keys and a function of them holds the value of the function under each key. -/
theorem get?_ofList_map (keys : List κ) (value : κ → β) (key : κ) :
    (ofList (keys.map fun key => (key, value key))).get? key =
      if key ∈ keys then some (value key) else none := by
  have onto (map : OrderedMap κ β) :
      ((keys.map fun key => (key, value key)).foldl (fun map entry => map.insert entry.1 entry.2)
        map).get? key = if key ∈ keys then some (value key) else map.get? key := by
    induction keys generalizing map with
    | nil => simp
    | cons head rest ih =>
      rw [List.map_cons, List.foldl_cons, ih, get?_insert]
      by_cases later : key ∈ rest
      · simp [later]
      · by_cases here : key = head
        · simp [here]
        · simp [later, here]
  exact onto empty

omit [DecidableLT κ] [Std.IsLinearOrder κ] in
/-- Tables that answer every look-up alike are equal. -/
theorem ext_get? {left right : OrderedMap κ β} (same : ∀ key, left.get? key = right.get? key) :
    left = right := by
  have members (entry : κ × β) : entry ∈ left.entries ↔ entry ∈ right.entries := by
    rw [← get?_eq_some_iff, ← get?_eq_some_iff, same]
  have lists := eq_of_pairwise Std.not_gt_of_lt left.ascending right.ascending members
  cases left
  cases right
  cases lists
  rfl

omit [DecidableLT κ] [Std.IsLinearOrder κ] in
/-- The entries are those of the keys, looked up in order. The keys may be more than those of the
table. -/
theorem entries_eq_filterMap {map : OrderedMap κ β} {keys : List κ} (order : keys.Pairwise (· < ·))
    (within : ∀ key ∈ map, key ∈ keys) :
    map.entries = keys.filterMap fun key => (map.get? key).map fun value => (key, value) := by
  apply eq_of_pairwise Std.not_gt_of_lt map.ascending (pairwise_filterMap_keys order map.get?)
  rintro ⟨key, value⟩
  simp only [List.mem_filterMap, Option.map_eq_some_iff, get?_eq_some_iff, Prod.mk.injEq]
  constructor
  · intro member
    exact ⟨key, within key (mem_iff_exists.mpr ⟨value, member⟩), value, member, rfl, rfl⟩
  · rintro ⟨_, _, _, member, rfl, rfl⟩
    exact member

end Order

end OrderedMap

end ProcessFlow
