import Mathlib.Data.List.TakeWhile
import ProcessFlow.Text.Blank

/-! # Blanks around a text

Trimming takes away blanks at both ends and nothing else, and it takes away all of them: what is left is
the only text that begins and ends with no blank and has only blanks around it.
-/

namespace ProcessFlow

def Blank (text : List Char) : Prop := ∀ character ∈ text, isBlank character = true

instance (text : List Char) : Decidable (Blank text) := List.decidableBAll _ text

variable {text front back core : List Char}

@[simp] theorem blank_nil : Blank [] := nofun

/-! ## Blanks in front -/

theorem blank_takeWhile (text : List Char) : Blank (text.takeWhile isBlank) :=
  List.all_eq_true.mp List.all_takeWhile

theorem takeWhile_append_skipBlank (text : List Char) :
    text.takeWhile isBlank ++ skipBlank text = text := List.takeWhile_append_dropWhile

theorem skipBlank_append (blank : Blank front) : skipBlank (front ++ text) = skipBlank text :=
  List.dropWhile_append_of_pos blank

theorem skipBlank_eq_nil_iff : skipBlank text = [] ↔ Blank text := List.dropWhile_eq_nil_iff

/-- A text that begins with no blank has no blanks in front. -/
theorem skipBlank_of_solid (solid : ∀ character ∈ text.head?, isBlank character = false) :
    skipBlank text = text := by
  cases text with
  | nil => rfl
  | cons head rest => exact skipBlank_cons_of_not_blank (solid head rfl)

/-- What is left without the blanks in front begins with no blank. -/
theorem isBlank_of_skipBlank {head : Char} {rest : List Char} (left : skipBlank text = head :: rest) :
    isBlank head = false := by
  have solid := List.head?_dropWhile_not isBlank text
  rw [← skipBlank, left] at solid
  exact solid

@[simp] theorem skipBlank_skipBlank (text : List Char) : skipBlank (skipBlank text) = skipBlank text := by
  apply skipBlank_of_solid
  intro head first
  obtain ⟨rest, left⟩ := List.head?_eq_some_iff.mp first
  exact isBlank_of_skipBlank left

/-! ## Blanks at both ends -/

/-- Blanks around a text make no difference to what is left without them. -/
theorem trimBlank_append (blankFront : Blank front) (blankBack : Blank back) :
    trimBlank (front ++ text ++ back) = trimBlank text := by
  have blankReverse : Blank back.reverse := fun _ member => blankBack _ (List.mem_reverse.mp member)
  rw [trimBlank, trimBlank, List.append_assoc, skipBlank_append blankFront]
  cases left : skipBlank text with
  | nil => rw [skipBlank_append (skipBlank_eq_nil_iff.mp left), skipBlank_eq_nil_iff.mpr blankBack]
  | cons head rest =>
    have kept : skipBlank (text ++ back) = head :: rest ++ back := by
      rw [skipBlank, List.dropWhile_append, ← skipBlank, left]
      rfl
    rw [kept, List.reverse_append, skipBlank_append blankReverse]

/-- What is left of a text without the blanks around it. -/
structure Trims (text core : List Char) : Prop where
  around : ∃ front back, text = front ++ core ++ back ∧ Blank front ∧ Blank back
  first : ∀ character ∈ core.head?, isBlank character = false
  last : ∀ character ∈ core.getLast?, isBlank character = false

theorem trims_trimBlank (text : List Char) : Trims text (trimBlank text) := by
  have whole := takeWhile_append_skipBlank text
  have back := takeWhile_append_skipBlank (skipBlank text).reverse
  have cut : skipBlank text =
      trimBlank text ++ ((skipBlank text).reverse.takeWhile isBlank).reverse := by
    rw [trimBlank, ← List.reverse_append, back, List.reverse_reverse]
  refine ⟨⟨_, ((skipBlank text).reverse.takeWhile isBlank).reverse, ?_, blank_takeWhile text, ?_⟩,
    ?_, ?_⟩
  · rw [List.append_assoc, ← cut, whole]
  · exact fun _ member => blank_takeWhile _ _ (List.mem_reverse.mp member)
  · intro head first
    obtain ⟨others, trimmed⟩ := List.head?_eq_some_iff.mp first
    rw [trimmed] at cut
    exact isBlank_of_skipBlank cut
  · intro final last
    rw [trimBlank, List.getLast?_reverse] at last
    obtain ⟨others, trimmed⟩ := List.head?_eq_some_iff.mp last
    exact isBlank_of_skipBlank trimmed

/-- Trimming is determined by what it leaves. -/
theorem trimBlank_eq_iff : trimBlank text = core ↔ Trims text core := by
  constructor
  · rintro rfl
    exact trims_trimBlank text
  · rintro ⟨⟨front, back, rfl, blankFront, blankBack⟩, first, last⟩
    rw [trimBlank_append blankFront blankBack, trimBlank, skipBlank_of_solid first,
      skipBlank_of_solid (by rwa [List.head?_reverse]), List.reverse_reverse]

/-- A text without blanks around it is left as it is. -/
@[simp] theorem trimBlank_trimBlank (text : List Char) :
    trimBlank (trimBlank text) = trimBlank text :=
  trimBlank_eq_iff.mpr ⟨⟨[], [], by simp⟩, (trims_trimBlank text).first, (trims_trimBlank text).last⟩

/-- A text that ends with no blank only loses the blanks in front. -/
theorem trimBlank_of_solid_last (solid : ∀ character ∈ text.getLast?, isBlank character = false) :
    trimBlank text = skipBlank text := by
  have whole := takeWhile_append_skipBlank text
  refine trimBlank_eq_iff.mpr
    ⟨⟨_, [], by rw [List.append_nil, whole], blank_takeWhile text, blank_nil⟩, ?_, ?_⟩
  · intro head first
    obtain ⟨rest, left⟩ := List.head?_eq_some_iff.mp first
    exact isBlank_of_skipBlank left
  · intro final last
    apply solid
    rw [← whole, List.getLast?_append, Option.mem_def.mp last, Option.some_or]
    rfl

/-- Nothing is left exactly of a text of blanks. -/
theorem trimBlank_eq_nil_iff : trimBlank text = [] ↔ Blank text := by
  rw [trimBlank_eq_iff]
  constructor
  · rintro ⟨⟨front, back, rfl, blankFront, blankBack⟩, _, _⟩ character member
    simp only [List.append_nil, List.mem_append] at member
    exact member.elim (blankFront character) (blankBack character)
  · intro blank
    exact ⟨⟨text, [], by simp, blank, blank_nil⟩, nofun, nofun⟩

end ProcessFlow
