import Mathlib

/-! # Texts as bytes

UTF-8 keeps order: a lesser character has lesser bytes, whatever follows it, so texts are in the order
of their bytes. More bytes begin with a greater byte, and among equally many the places of the code
point stand in their order, the highest first.
-/

namespace ProcessFlow

def bytesOf (text : String) : List UInt8 := text.toUTF8.data.toList

theorem bytesOf_eq (text : String) : bytesOf text = text.toList.flatMap String.utf8EncodeChar := by
  rw [bytesOf, String.toUTF8, ← String.utf8Encode_toList, List.utf8Encode, List.toList_data_toByteArray]

@[simp] theorem bytesOf_append (front back : String) :
    bytesOf (front ++ back) = bytesOf front ++ bytesOf back := by
  simp [bytesOf_eq]

theorem bytesOf_injective : Function.Injective bytesOf := by
  intro left right same
  exact String.toByteArray_inj.mp (ByteArray.ext (Array.toList_inj.mp same))

/-! ## Single bytes -/

theorem compare_byte {left right : Nat} (leftByte : left < 256) (rightByte : right < 256) :
    compare (UInt8.ofNat left) (UInt8.ofNat right) = compare left right := by
  rcases Nat.lt_trichotomy left right with less | rfl | greater
  · rw [Std.compare_eq_lt.mpr less, Std.compare_eq_lt, UInt8.lt_iff_toNat_lt]
    simpa [Nat.mod_eq_of_lt, leftByte, rightByte] using less
  · rw [Std.compare_self, Std.compare_self]
  · rw [Std.compare_eq_gt.mpr greater, Std.compare_eq_gt, UInt8.lt_iff_toNat_lt]
    simpa [Nat.mod_eq_of_lt, leftByte, rightByte] using greater

/-- A common front makes no difference. -/
theorem compare_append_left {α : Type} [Ord α] [Std.ReflOrd α] (front left right : List α) :
    compare (front ++ left) (front ++ right) = compare left right := by
  induction front with
  | nil => rfl
  | cons head rest ih => rw [List.cons_append, List.cons_append, List.compare_cons_cons, Std.compare_self, ih,
      Ordering.then]

/-! ## Characters -/

theorem code_lt (character : Char) : character.val.toNat < 1114112 := by
  have valid := character.valid
  simp only [UInt32.isValidChar, Nat.isValidChar] at valid
  omega

/-- The places of a code point that bytes hold, of three bits and then six each. -/
theorem code_places {code : Nat} (bound : code < 1114112) : code = 262144 * (code / 262144 % 8) +
    4096 * (code / 4096 % 64) + 64 * (code / 64 % 64) + code % 64 := by
  omega

/-- The bytes of a lesser character are less, whatever follows them. -/
theorem compare_encoded {left right : Char} (less : left < right) (leftRest rightRest : List UInt8) :
    compare (String.utf8EncodeChar left ++ leftRest) (String.utf8EncodeChar right ++ rightRest) =
      .lt := by
  have codes : left.val.toNat < right.val.toNat := UInt32.lt_iff_toNat_lt.mp less
  have leftPlaces := code_places (code_lt left)
  have rightPlaces := code_places (code_lt right)
  have last := code_lt right
  simp only [String.utf8EncodeChar]
  generalize left.val.toNat = low at *
  generalize right.val.toNat = high at *
  -- one case for each number of bytes on either side; the first byte settles it unless these agree
  split_ifs <;>
    simp (disch := omega) only [List.cons_append, List.compare_cons_cons, compare_byte,
      Ordering.then_eq_lt, Nat.compare_eq_lt, Nat.compare_eq_eq] <;>
    omega

theorem encoded_ne_nil (character : Char) : String.utf8EncodeChar character ≠ [] := by
  simp only [String.utf8EncodeChar]
  split_ifs <;> exact List.cons_ne_nil _ _

/-! ## Texts -/

theorem compare_flatMap_encoded {left right : List Char} (less : left < right) :
    compare (left.flatMap String.utf8EncodeChar) (right.flatMap String.utf8EncodeChar) = .lt := by
  induction left generalizing right with
  | nil =>
    cases right with
    | nil => cases less
    | cons head rest =>
      obtain ⟨byte, bytes, encoded⟩ := List.exists_cons_of_ne_nil (encoded_ne_nil head)
      rw [List.flatMap_nil, List.flatMap_cons, encoded, List.cons_append, List.compare_nil_cons]
  | cons head rest ih =>
    cases right with
    | nil => cases less
    | cons other others =>
      rw [List.flatMap_cons, List.flatMap_cons]
      rcases List.cons_lt_cons_iff.mp less with lower | ⟨rfl, later⟩
      · exact compare_encoded lower _ _
      · rw [compare_append_left, ih later]

/-- The order of texts is the order of their bytes. -/
theorem compareOfLessAndEq_eq (left right : String) :
    compareOfLessAndEq left right = compare (bytesOf left) (bytesOf right) := by
  have ascending {left right : String} (less : left < right) :
      compare (bytesOf left) (bytesOf right) = .lt := by
    rw [bytesOf_eq, bytesOf_eq]
    exact compare_flatMap_encoded (String.lt_iff_toList_lt.mp less)
  rcases Std.lt_trichotomy left right with less | rfl | greater
  · rw [ascending less, compareOfLessAndEq, if_pos less]
  · rw [Std.compare_self, compareOfLessAndEq, if_neg Std.lt_irrefl, if_pos rfl]
  · rw [Std.OrientedOrd.eq_swap, ascending greater, compareOfLessAndEq,
      if_neg (Std.not_gt_of_lt greater), if_neg (Std.ne_of_lt greater).symm]
    rfl

end ProcessFlow
