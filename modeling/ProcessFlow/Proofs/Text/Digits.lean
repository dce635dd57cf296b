import Mathlib
import ProcessFlow.Text.Blank
import ProcessFlow.Text.Digits

/-! # Runs of digits

A run of digits before something else is taken as a whole, and what is taken holds digits only. Digits
are a number with a digit more for each place, so the first nine digits of a fraction tell it to the
billionth, cut off.
-/

namespace ProcessFlow

def AllDigits (text : List Char) : Prop := ∀ character ∈ text, character.isDigit = true

/-- The text goes on with something else than a digit, or ends. -/
def NoDigitNext (text : List Char) : Prop := ∀ character ∈ text.head?, character.isDigit = false

instance (text : List Char) : Decidable (AllDigits text) := List.decidableBAll _ text

variable {digits rest text : List Char} {digit : Char} {limit value width : Nat}

@[simp] theorem noDigitNext_nil : NoDigitNext [] := nofun

/-! ## Digits as characters -/

theorem isDigit_iff : digit.isDigit = true ↔ 48 ≤ digit.toNat ∧ digit.toNat ≤ 57 := by
  simp only [Char.isDigit, Bool.and_eq_true, decide_eq_true_eq, UInt32.le_iff_toNat_le]
  rfl

theorem isBlank_of_isDigit (isDigit : digit.isDigit = true) : isBlank digit = false := by
  have bounds := isDigit_iff.mp isDigit
  unfold isBlank
  simp only [Bool.or_eq_false_iff, Bool.and_eq_false_iff, beq_eq_false_iff_ne, decide_eq_false_iff_not]
  omega

theorem digitValue_lt (isDigit : digit.isDigit = true) : digitValue digit < 10 := by
  have bounds := isDigit_iff.mp isDigit
  unfold digitValue
  omega

theorem isDigit_digitChar (small : value < 10) : (Nat.digitChar value).isDigit = true := by
  match value, small with
  | 0, _ | 1, _ | 2, _ | 3, _ | 4, _ | 5, _ | 6, _ | 7, _ | 8, _ | 9, _ => rfl

theorem allDigits_fixedDigits (width value : Nat) : AllDigits (fixedDigits width value) := by
  induction width generalizing value with
  | zero => exact nofun
  | succ width ih =>
    intro character member
    rw [fixedDigits, List.mem_append, List.mem_singleton] at member
    rcases member with before | rfl
    · exact ih _ character before
    · exact isDigit_digitChar (Nat.mod_lt _ (by decide))

/-! ## The number of digits -/

theorem decimalValue_append (front back : List Char) : decimalValue (front ++ back) =
    decimalValue front * 10 ^ back.length + decimalValue back := by
  induction back using List.reverseRecOn with
  | nil => simp [decimalValue]
  | append_singleton back last ih =>
    rw [← List.append_assoc, decimalValue_append_one, decimalValue_append_one, ih, List.length_append,
      List.length_singleton, Nat.pow_succ, Nat.mul_add, Nat.mul_left_comm, Nat.mul_comm 10 (10 ^ _),
      Nat.add_assoc]

theorem decimalValue_lt (allDigits : AllDigits digits) : decimalValue digits < 10 ^ digits.length := by
  induction digits using List.reverseRecOn with
  | nil => exact Nat.one_pos
  | append_singleton front last ih =>
    have before := ih fun character member => allDigits character (List.mem_append_left _ member)
    have lastLess := digitValue_lt (allDigits last (by simp))
    rw [decimalValue_append_one, List.length_append, List.length_singleton, Nat.pow_succ]
    omega

theorem allDigits_decimal (number : Nat) : AllDigits (decimal number) :=
  fun _ member => Nat.isDigit_of_mem_toDigits (by decide) (by decide) member

theorem decimalValue_decimal (number : Nat) : decimalValue (decimal number) = number :=
  Nat.ofDigitChars_ten_toDigits

/-- The lesser number has no more digits. -/
theorem length_decimal_mono {left right : Nat} (le : left ≤ right) :
    (decimal left).length ≤ (decimal right).length := by
  apply (Nat.length_toDigits_le_iff (by decide) Nat.length_toDigits_pos).mpr
  calc left
    _ ≤ right := le
    _ < 10 ^ (decimal right).length :=
      (Nat.length_toDigits_le_iff (by decide) Nat.length_toDigits_pos).mp (Nat.le_refl _)

/-- Equally many digits are in the order of their numbers. -/
theorem lt_of_decimalValue_lt {left right : List Char} (leftDigits : AllDigits left)
    (rightDigits : AllDigits right) (same : left.length = right.length)
    (less : decimalValue left < decimalValue right) : left < right := by
  induction left generalizing right with
  | nil =>
    rw [List.length_eq_zero_iff.mp same.symm] at less
    exact absurd less (Nat.lt_irrefl _)
  | cons head rest ih =>
    cases right with
    | nil => cases same
    | cons other others =>
      obtain ⟨headDigit, restDigits⟩ := List.forall_mem_cons.mp leftDigits
      obtain ⟨otherDigit, othersDigits⟩ := List.forall_mem_cons.mp rightDigits
      have sameRest : rest.length = others.length := Nat.succ.inj same
      have sum (first : Char) (digits : List Char) : decimalValue (first :: digits) =
          digitValue first * 10 ^ digits.length + decimalValue digits := by
        rw [← List.singleton_append, decimalValue_append]
        simp [decimalValue]
      rw [sum, sum, sameRest] at less
      rw [List.cons_lt_cons_iff]
      have headCode := isDigit_iff.mp headDigit
      have otherCode := isDigit_iff.mp otherDigit
      unfold digitValue at less
      rcases Nat.lt_trichotomy head.toNat other.toNat with lower | equal | higher
      · exact .inl (UInt32.lt_iff_toNat_lt.mpr lower)
      · rw [equal] at less
        exact .inr ⟨Char.toNat_inj.mp equal, ih restDigits othersDigits sameRest (by omega)⟩
      · have othersLess := decimalValue_lt othersDigits
        have step : (other.toNat - 48 + 1) * 10 ^ others.length ≤
            (head.toNat - 48) * 10 ^ others.length := Nat.mul_le_mul_right _ (by omega)
        rw [Nat.succ_mul] at step
        omega

theorem decimalValue_zeros (count : Nat) : decimalValue (List.replicate count '0') = 0 := by
  induction count with
  | zero => rfl
  | succ count ih => rw [List.replicate_succ', decimalValue_append_one, ih]; rfl

/-- The first digits of a fraction, filled up with zeros, are the fraction in units of their last
place, cut off. -/
theorem decimalValue_take_zeros (allDigits : AllDigits digits) (places : Nat) :
    decimalValue ((digits ++ List.replicate places '0').take places) =
      decimalValue digits * 10 ^ places / 10 ^ digits.length := by
  rcases Nat.le_total digits.length places with short | long
  · have filled : (digits ++ List.replicate places '0').take places =
        digits ++ List.replicate (places - digits.length) '0' := by
      rw [List.take_append, List.take_of_length_le short, List.take_replicate,
        Nat.min_eq_left (Nat.sub_le ..)]
    have shift : 10 ^ places = 10 ^ (places - digits.length) * 10 ^ digits.length := by
      rw [← Nat.pow_add, Nat.sub_add_cancel short]
    rw [filled, decimalValue_append, decimalValue_zeros, Nat.add_zero, List.length_replicate, shift,
      ← Nat.mul_assoc, Nat.mul_div_cancel _ (Nat.pow_pos (by decide))]
  · have cut : (digits ++ List.replicate places '0').take places = digits.take places :=
      List.take_append_of_le_length long
    have size : 10 ^ digits.length = 10 ^ places * 10 ^ (digits.drop places).length := by
      rw [← Nat.pow_add, List.length_drop, Nat.add_sub_cancel' long]
    have lost : decimalValue (digits.drop places) < 10 ^ (digits.drop places).length :=
      decimalValue_lt fun character member => allDigits character (List.mem_of_mem_drop member)
    have split := decimalValue_append (digits.take places) (digits.drop places)
    rw [List.take_append_drop] at split
    rw [cut, size, Nat.mul_comm (decimalValue digits), Nat.mul_div_mul_left _ _ (Nat.pow_pos (by decide)),
      split, Nat.mul_comm (decimalValue (digits.take places)),
      Nat.mul_add_div (Nat.pow_pos (by decide)), Nat.div_eq_of_lt lost, Nat.add_zero]

/-! ## Taking digits off a text -/

theorem allDigits_takeDigits (limit : Nat) (text : List Char) :
    AllDigits (takeDigits limit text).1 ∧ (takeDigits limit text).1.length ≤ limit := by
  induction limit generalizing text with
  | zero => exact ⟨nofun, Nat.le_refl 0⟩
  | succ limit ih =>
    cases text with
    | nil => exact ⟨nofun, Nat.zero_le _⟩
    | cons head rest =>
      rw [takeDigits]
      split
      · rename_i isDigit
        exact ⟨List.forall_mem_cons.mpr ⟨isDigit, (ih rest).1⟩, Nat.succ_le_succ (ih rest).2⟩
      · exact ⟨nofun, Nat.zero_le _⟩

theorem takeDigits_of_noDigitNext (limit : Nat) (ends : NoDigitNext text) :
    takeDigits limit text = ([], text) := by
  cases limit with
  | zero => rfl
  | succ limit =>
    cases text with
    | nil => rfl
    | cons head rest => rw [takeDigits, if_neg (by rw [ends head rfl]; decide)]

/-- Digits that are not too many are taken as a whole. -/
theorem takeDigits_append_of_allDigits (allDigits : AllDigits digits) (few : digits.length ≤ limit)
    (ends : NoDigitNext rest) : takeDigits limit (digits ++ rest) = (digits, rest) := by
  induction digits generalizing limit with
  | nil => exact takeDigits_of_noDigitNext limit ends
  | cons head others ih =>
    obtain ⟨isDigit, later⟩ := List.forall_mem_cons.mp allDigits
    cases limit with
    | zero => cases few
    | succ limit => rw [List.cons_append, takeDigits, if_pos isDigit, ih later (Nat.le_of_succ_le_succ few)]

theorem spanDigits_append_of_allDigits (allDigits : AllDigits digits) (ends : NoDigitNext rest) :
    spanDigits (digits ++ rest) = (digits, rest) := by
  have stops : rest.takeWhile Char.isDigit = [] ∧ rest.dropWhile Char.isDigit = rest := by
    cases rest with
    | nil => exact ⟨rfl, rfl⟩
    | cons head others => simp [ends head rfl]
  rw [spanDigits, List.takeWhile_append_of_pos allDigits, List.dropWhile_append_of_pos allDigits, stops.1,
    stops.2, List.append_nil]

theorem allDigits_spanDigits (text : List Char) : AllDigits (spanDigits text).1 :=
  fun _ member => List.mem_takeWhile_imp member

theorem noDigitNext_spanDigits (text : List Char) : NoDigitNext (spanDigits text).2 := by
  intro character next
  have solid := List.head?_dropWhile_not Char.isDigit text
  rw [show text.dropWhile Char.isDigit = (spanDigits text).2 from rfl, Option.mem_def.mp next] at solid
  exact solid

theorem NoDigitNext.append (first : NoDigitNext text) (second : NoDigitNext rest) :
    NoDigitNext (text ++ rest) := by
  cases text with
  | nil => exact second
  | cons head others => exact first

/-- What follows after something else than a digit makes no difference to the digits in front. -/
theorem someDigits?_delimited {after : List Char} (taken : someDigits? text = some (digits, after))
    (ends : NoDigitNext rest) : someDigits? (text ++ rest) = some (digits, after ++ rest) := by
  obtain ⟨rfl, present⟩ := someDigits?_append taken
  unfold someDigits? at taken
  split at taken
  · cases taken
  · have allDigits := allDigits_spanDigits (digits ++ after)
    have stops := noDigitNext_spanDigits (digits ++ after)
    rw [Option.some.inj taken] at allDigits stops
    rw [List.append_assoc, someDigits?, spanDigits_append_of_allDigits allDigits (stops.append ends),
      if_neg (by simpa using present)]

end ProcessFlow
