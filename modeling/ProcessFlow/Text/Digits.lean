/-! # Digits

Runs of the digits `0` to `9`, the number that they write, and numbers written with a fixed count
of digits. Writing a number below `10 ^ width` with `width` digits and reading it gives it back.
-/

namespace ProcessFlow

def digitValue (digit : Char) : Nat := digit.toNat - 48

def decimalValue (digits : List Char) : Nat :=
  digits.foldl (fun value digit => 10 * value + digitValue digit) 0

def hexValue? (digit : Char) : Option Nat :=
  let code := digit.toNat
  if 48 ≤ code ∧ code ≤ 57 then some (code - 48)
  else if 97 ≤ code ∧ code ≤ 102 then some (code - 87)
  else if 65 ≤ code ∧ code ≤ 70 then some (code - 55)
  else none

/-- The digits at the front of a text, at most `limit` of them, and what follows. -/
def takeDigits : Nat → List Char → List Char × List Char
  | limit + 1, head :: rest =>
    if head.isDigit then
      let (digits, after) := takeDigits limit rest
      (head :: digits, after)
    else ([], head :: rest)
  | _, text => ([], text)

/-- All the digits at the front of a text, and what follows. -/
def spanDigits (text : List Char) : List Char × List Char :=
  (text.takeWhile Char.isDigit, text.dropWhile Char.isDigit)

/-- The last `width` digits of a number, with zeros in front where it has fewer. -/
def fixedDigits : Nat → Nat → List Char
  | 0, _ => []
  | width + 1, value => fixedDigits width (value / 10) ++ [Nat.digitChar (value % 10)]

/-- The digits of a number, without zeros in front. -/
def decimal (value : Nat) : List Char := Nat.toDigits 10 value

@[simp] theorem length_fixedDigits (width value : Nat) : (fixedDigits width value).length = width := by
  induction width generalizing value with
  | zero => rfl
  | succ width ih => simp [fixedDigits, ih]

theorem decimalValue_append_one (digits : List Char) (last : Char) :
    decimalValue (digits ++ [last]) = 10 * decimalValue digits + digitValue last := by
  simp [decimalValue]

theorem digitValue_digitChar {value : Nat} (small : value < 10) :
    digitValue (Nat.digitChar value) = value := by
  match value, small with
  | 0, _ | 1, _ | 2, _ | 3, _ | 4, _ | 5, _ | 6, _ | 7, _ | 8, _ | 9, _ => rfl

/-- Reading back the last digits of a number gives the number up to the power of ten. -/
theorem decimalValue_fixedDigits (width value : Nat) :
    decimalValue (fixedDigits width value) = value % Nat.pow 10 width := by
  induction width generalizing value with
  | zero => simp [fixedDigits, decimalValue, Nat.mod_one]
  | succ width ih =>
    rw [fixedDigits, decimalValue_append_one, ih, digitValue_digitChar (Nat.mod_lt _ (by decide)),
      show Nat.pow 10 (width + 1) = 10 * Nat.pow 10 width from Nat.pow_succ', Nat.mod_mul]
    omega

/-- One or more digits at the front of a text, and what follows. -/
def someDigits? (text : List Char) : Option (List Char × List Char) :=
  if (spanDigits text).1.isEmpty then none else some (spanDigits text)

/-- Cutting off the digits loses nothing. -/
theorem spanDigits_append (text : List Char) : (spanDigits text).1 ++ (spanDigits text).2 = text :=
  List.takeWhile_append_dropWhile

theorem someDigits?_append {text digits rest : List Char}
    (taken : someDigits? text = some (digits, rest)) : digits ++ rest = text ∧ digits ≠ [] := by
  unfold someDigits? at taken
  split at taken
  · cases taken
  · rename_i present
    cases taken
    exact ⟨spanDigits_append text, fun none => present (List.isEmpty_iff.mpr none)⟩

/-- Taking digits loses nothing. -/
theorem takeDigits_append (limit : Nat) (text : List Char) :
    (takeDigits limit text).1 ++ (takeDigits limit text).2 = text := by
  fun_induction takeDigits limit text with
  | case1 limit head rest digit digits after taken ih =>
    rw [taken] at ih
    exact congrArg (head :: ·) ih
  | case2 => rfl
  | case3 => rfl

end ProcessFlow
