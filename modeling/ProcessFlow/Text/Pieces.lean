/-! # Cutting a text at a separator

A text with `n` separators has `n + 1` pieces, which may be empty. Joining the pieces with the
separator gives the text back.
-/

namespace ProcessFlow

variable {α : Type} [DecidableEq α]

/-- The pieces of a text between its separators. -/
def pieces (separator : α) : List α → List (List α)
  | [] => [[]]
  | head :: rest =>
    if head = separator then [] :: pieces separator rest
    else
      match pieces separator rest with
      | [] => [[head]]
      | piece :: others => (head :: piece) :: others

theorem pieces_ne_nil (separator : α) (text : List α) : pieces separator text ≠ [] := by
  cases text with
  | nil => simp [pieces]
  | cons head rest =>
    simp only [pieces]
    split
    · simp
    · split <;> simp

/-- Nothing is lost: the pieces joined with the separator are the text. -/
theorem intercalate_pieces (separator : α) (text : List α) :
    List.intercalate [separator] (pieces separator text) = text := by
  induction text with
  | nil => simp [pieces, List.intercalate]
  | cons head rest ih =>
    simp only [pieces]
    have present := pieces_ne_nil separator rest
    split
    · rename_i same
      subst same
      obtain ⟨piece, others, shape⟩ := List.exists_cons_of_ne_nil present
      rw [shape] at ih ⊢
      simp only [List.intercalate, List.intersperse_cons_cons, List.flatten_cons] at ih ⊢
      simpa using ih
    · split
      · contradiction
      · rename_i piece others shape
        rw [shape] at ih
        cases others with
        | nil => simpa [List.intercalate] using ih
        | cons next more =>
          simp only [List.intercalate, List.intersperse_cons_cons, List.flatten_cons] at ih ⊢
          simpa using ih

/-- No piece holds the separator. -/
theorem separator_not_mem_piece {separator : α} {text piece : List α}
    (member : piece ∈ pieces separator text) : separator ∉ piece := by
  induction text generalizing piece with
  | nil => simp [pieces] at member; simp [member]
  | cons head rest ih =>
    simp only [pieces] at member
    split at member
    · rcases List.mem_cons.mp member with rfl | later
      · simp
      · exact ih later
    · rename_i different
      split at member
      · simp only [List.mem_singleton] at member
        subst member
        simpa using Ne.symm different
      · rename_i first others shape
        rcases List.mem_cons.mp member with rfl | later
        · have := ih (shape ▸ List.mem_cons_self ..)
          simpa [Ne.symm different] using this
        · exact ih (shape ▸ List.mem_cons_of_mem _ later)

/-- A text without separators is its one piece. -/
theorem pieces_of_not_mem {separator : α} {text : List α} (absent : separator ∉ text) :
    pieces separator text = [text] := by
  induction text with
  | nil => rfl
  | cons head rest ih =>
    rw [List.mem_cons, not_or] at absent
    rw [pieces, if_neg (Ne.symm absent.1), ih absent.2]

/-- The first piece ends before the first separator. -/
theorem pieces_append_cons {separator : α} {piece : List α} (absent : separator ∉ piece)
    (rest : List α) : pieces separator (piece ++ separator :: rest) = piece :: pieces separator rest := by
  induction piece with
  | nil => rw [List.nil_append, pieces, if_pos rfl]
  | cons head others ih =>
    rw [List.mem_cons, not_or] at absent
    rw [List.cons_append, pieces, if_neg (Ne.symm absent.1), ih absent.2]

/-- The pieces of joined pieces are those that were joined. -/
theorem pieces_intercalate {separator : α} {list : List (List α)} (solid : list ≠ [])
    (absent : ∀ piece ∈ list, separator ∉ piece) :
    pieces separator (List.intercalate [separator] list) = list := by
  induction list with
  | nil => contradiction
  | cons piece rest ih =>
    obtain ⟨here, later⟩ := List.forall_mem_cons.mp absent
    cases rest with
    | nil => rw [List.intercalate_singleton, pieces_of_not_mem here]
    | cons next more =>
      rw [List.intercalate_cons_cons, List.append_assoc, List.singleton_append,
        pieces_append_cons here, ih (List.cons_ne_nil next more) later]

end ProcessFlow
