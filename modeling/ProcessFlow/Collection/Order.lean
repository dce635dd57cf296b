/-! # Orders by two keys, and lists in order

Values that are compared by one key first and by another among equals are in a linear order when the
two keys tell them apart. A list in strict order is settled by its members.
-/

namespace ProcessFlow

section Keys

variable {α β γ : Type} [LE α] [LT α] [LE β] [LT β] [LE γ] [LT γ]
  [Std.IsLinearOrder α] [Std.LawfulOrderLT α] [Std.IsLinearOrder β] [Std.LawfulOrderLT β]
  {first : γ → α} {second : γ → β}

omit [LT β] [LT γ] [Std.LawfulOrderLT β] in
/-- An order by one key and then by another is linear. -/
theorem isLinearOrder_of_keys
    (le_iff : ∀ {left right : γ}, left ≤ right ↔
      first left < first right ∨ first left = first right ∧ second left ≤ second right)
    (apart : ∀ {left right : γ}, first left = first right → second left = second right →
      left = right) : Std.IsLinearOrder γ where
  le_refl value := le_iff.mpr (.inr ⟨rfl, Std.le_refl _⟩)
  le_trans left middle right lower upper := by
    apply le_iff.mpr
    rcases le_iff.mp lower with below | ⟨same, least⟩
    · rcases le_iff.mp upper with above | ⟨same, _⟩
      · exact .inl (Std.lt_trans below above)
      · exact .inl (same ▸ below)
    · rcases le_iff.mp upper with above | ⟨same', most⟩
      · exact .inl (same ▸ above)
      · exact .inr ⟨same.trans same', Std.le_trans least most⟩
  le_antisymm left right lower upper := by
    rcases le_iff.mp lower with below | ⟨same, least⟩
    · rcases le_iff.mp upper with above | ⟨same, _⟩
      · exact absurd above (Std.not_gt_of_lt below)
      · exact absurd (same ▸ below) Std.lt_irrefl
    · rcases le_iff.mp upper with above | ⟨_, most⟩
      · exact absurd (same ▸ above) Std.lt_irrefl
      · exact apart same (Std.le_antisymm least most)
  le_total left right := by
    rcases Std.lt_trichotomy (first left) (first right) with below | same | above
    · exact .inl (le_iff.mpr (.inl below))
    · rcases (Std.le_total : second left ≤ second right ∨ second right ≤ second left) with least | most
      · exact .inl (le_iff.mpr (.inr ⟨same, least⟩))
      · exact .inr (le_iff.mpr (.inr ⟨same.symm, most⟩))
    · exact .inr (le_iff.mpr (.inl above))

omit [Std.IsLinearOrder α] in
/-- The strict order by the same keys belongs to it. -/
theorem lawfulOrderLT_of_keys
    (le_iff : ∀ {left right : γ}, left ≤ right ↔
      first left < first right ∨ first left = first right ∧ second left ≤ second right)
    (lt_iff : ∀ {left right : γ}, left < right ↔
      first left < first right ∨ first left = first right ∧ second left < second right) :
    Std.LawfulOrderLT γ where
  lt_iff left right := by
    rw [lt_iff, le_iff, le_iff]
    constructor
    · rintro (below | ⟨same, less⟩)
      · refine ⟨.inl below, ?_⟩
        rintro (above | ⟨same, _⟩)
        · exact Std.not_gt_of_lt below above
        · exact Std.lt_irrefl (same ▸ below)
      · refine ⟨.inr ⟨same, Std.le_of_lt less⟩, ?_⟩
        rintro (above | ⟨_, most⟩)
        · exact Std.lt_irrefl (same ▸ above)
        · exact Std.not_le_of_gt less most
    · rintro ⟨below | ⟨same, least⟩, notAbove⟩
      · exact .inl below
      · exact .inr ⟨same, Std.not_le.mp fun most => notAbove (.inr ⟨same.symm, most⟩)⟩

end Keys

/-- Lists in a strict order with the same members are the same list. -/
theorem eq_of_pairwise {α : Type} {before : α → α → Prop}
    (asymm : ∀ {first second}, before first second → ¬ before second first) {left right : List α}
    (leftOrder : left.Pairwise before) (rightOrder : right.Pairwise before)
    (same : ∀ value, value ∈ left ↔ value ∈ right) : left = right := by
  have distinct {list : List α} (order : list.Pairwise before) : list.Nodup := by
    apply order.imp
    rintro first _ less rfl
    exact asymm less less
  have shuffled := (List.perm_ext_iff_of_nodup (distinct leftOrder) (distinct rightOrder)).mpr same
  apply shuffled.eq_of_pairwise _ leftOrder rightOrder
  intro first second _ _ less greater
  exact absurd greater (asymm less)

/-- In a list in a strict order, the first value with a result is the one that has no value with a
result before it. -/
theorem findSome?_eq_some_iff_of_pairwise {α β : Type} {before : α → α → Prop}
    (asymm : ∀ {first second}, before first second → ¬ before second first) {list : List α}
    (order : list.Pairwise before) {result? : α → Option β} {result : β} :
    list.findSome? result? = some result ↔
      ∃ value ∈ list, result? value = some result ∧
        ∀ other ∈ list, before other value → result? other = none := by
  rw [List.findSome?_eq_some_iff]
  constructor
  · rintro ⟨front, value, back, rfl, found, none⟩
    rw [List.pairwise_append, List.pairwise_cons] at order
    refine ⟨value, List.mem_append_right _ (List.mem_cons_self ..), found, fun other member earlier => ?_⟩
    rcases List.mem_append.mp member with inFront | inBack
    · exact none other inFront
    · rcases List.mem_cons.mp inBack with rfl | later
      · exact absurd earlier (asymm earlier)
      · exact absurd earlier (asymm (order.2.1.1 other later))
  · rintro ⟨value, member, found, none⟩
    obtain ⟨front, back, rfl⟩ := List.append_of_mem member
    rw [List.pairwise_append] at order
    refine ⟨front, value, back, rfl, found, fun other inFront => ?_⟩
    exact none other (List.mem_append_left _ inFront)
      (order.2.2 other inFront value (List.mem_cons_self ..))

end ProcessFlow
