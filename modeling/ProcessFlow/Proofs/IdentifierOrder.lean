import Mathlib
import ProcessFlow.Collection.OrderedMap
import ProcessFlow.Collection.OrderedSet
import ProcessFlow.Identifier
import ProcessFlow.Proofs.Text.Bytes
import ProcessFlow.Proofs.Text.Digits

/-! # The order of identifiers

Names are compared by how many bytes they have and then byte by byte. This is a strict total order in
which only equal names are equal, so sets and tables of identifiers tell all of them apart. A common
front makes no difference to it, and numerals come in the order of their numbers: of two without zeros
in front, the longer one is the greater number.
-/

namespace ProcessFlow

/-! ## Comparison of names -/

/-- Names are compared by their number of bytes, then by their bytes. -/
theorem compareNames_eq : compareNames =
    compareLex (compareOn fun name => (bytesOf name).length) (compareOn bytesOf) := by
  funext left right
  rw [compareNames, compareOfLessAndEq_eq]
  rfl

instance : Std.TransCmp compareNames := by
  rw [compareNames_eq]
  infer_instance

instance : Std.LawfulEqCmp compareNames where
  eq_of_compare same := by
    rw [compareNames_eq, compareLex, Ordering.then_eq_eq] at same
    exact bytesOf_injective (Std.LawfulEqOrd.eq_of_compare same.2)

theorem compareNames_swap (left right : String) :
    compareNames right left = (compareNames left right).swap := Std.OrientedCmp.eq_swap

theorem compareNames_eq_eq_iff {left right : String} : compareNames left right = .eq ↔ left = right :=
  Std.LawfulEqCmp.compare_eq_iff_eq

theorem compareNames_trans {left middle right : String} (lower : compareNames left middle = .lt)
    (upper : compareNames middle right = .lt) : compareNames left right = .lt :=
  Std.TransCmp.lt_trans lower upper

/-- A common front makes no difference. -/
theorem compareNames_append (front left right : String) :
    compareNames (front ++ left) (front ++ right) = compareNames left right := by
  have shift (left right : Nat) : compare ((bytesOf front).length + left) ((bytesOf front).length + right) =
      compare left right := by
    simp [Nat.compare_eq_ite_lt]
  simp only [compareNames_eq, compareLex, compareOn, bytesOf_append, compare_append_left,
    List.length_append, shift]

/-! ## Numerals -/

theorem utf8Len_of_allDigits {digits : List Char} (allDigits : AllDigits digits) :
    String.utf8Len digits = digits.length := by
  induction digits with
  | nil => rfl
  | cons head rest ih =>
    obtain ⟨isDigit, later⟩ := List.forall_mem_cons.mp allDigits
    have code : head.toNat ≤ 127 := by
      have bounds := isDigit_iff.mp isDigit
      omega
    have size : head.utf8Size = 1 := Char.utf8Size_eq_one_iff.mpr (UInt32.le_iff_toNat_le.mpr code)
    rw [String.utf8Len_cons, ih later, size, List.length_cons]

theorem utf8ByteSize_toString (number : Nat) :
    (toString number).utf8ByteSize = (decimal number).length := by
  rw [Nat.toString_eq_ofList_toDigits, String.utf8ByteSize_ofList]
  exact utf8Len_of_allDigits (allDigits_decimal number)

/-- The greater number has more digits, or as many and a greater one first. -/
theorem compareNames_toString_of_lt {left right : Nat} (less : left < right) :
    compareNames (toString left) (toString right) = .lt := by
  rw [compareNames, Ordering.then_eq_lt, Nat.compare_eq_lt, Nat.compare_eq_eq, compareOfLessAndEq_eq_lt,
    utf8ByteSize_toString, utf8ByteSize_toString]
  rcases Nat.lt_or_eq_of_le (length_decimal_mono (Nat.le_of_lt less)) with fewer | same
  · exact .inl fewer
  · refine .inr ⟨same, ?_⟩
    rw [String.lt_iff_toList_lt, Nat.toString_eq_ofList_toDigits, Nat.toString_eq_ofList_toDigits,
      String.toList_ofList, String.toList_ofList]
    apply lt_of_decimalValue_lt (allDigits_decimal left) (allDigits_decimal right) same
    rwa [decimalValue_decimal, decimalValue_decimal]

/-- Numerals are compared as their numbers are. -/
theorem compareNames_toString (left right : Nat) :
    compareNames (toString left) (toString right) = compare left right := by
  rcases Nat.lt_trichotomy left right with less | rfl | greater
  · rw [compareNames_toString_of_lt less, Nat.compare_eq_lt.mpr less]
  · rw [compareNames_eq_eq_iff.mpr rfl, Std.compare_self]
  · rw [compareNames_swap, compareNames_toString_of_lt greater, Nat.compare_eq_gt.mpr greater]
    rfl

/-! ## Sets and tables -/

section Collections

variable {α : Type} [LE α] [LT α] [DecidableLT α] [DecidableEq α] [Std.IsLinearOrder α]
  [Std.LawfulOrderLT α]

/-- A set grows by a value that it did not have. -/
theorem OrderedSet.size_insert (set : OrderedSet α) (value : α) :
    (set.insert value).size = if value ∈ set then set.size else set.size + 1 := by
  have distinct (set : OrderedSet α) : set.toList.Nodup := set.ascending.imp Std.ne_of_lt
  split
  · rename_i member
    have same : set.insert value = set := by
      ext other
      rw [mem_insert, or_iff_right_of_imp]
      rintro rfl
      exact member
    rw [same]
  · rename_i absent
    have more : (value :: set.toList).Nodup := List.nodup_cons.mpr ⟨absent, distinct set⟩
    have shuffled : (set.insert value).toList.Perm (value :: set.toList) :=
      (List.perm_ext_iff_of_nodup (distinct _) more).mpr fun other => by
        rw [mem_toList, mem_insert, List.mem_cons, mem_toList]
    exact shuffled.length_eq

variable {β : Type}

def OrderedMap.keySet (map : OrderedMap α β) : OrderedSet α :=
  ⟨map.keys, List.pairwise_map.mpr map.ascending⟩

theorem OrderedMap.mem_insert {map : OrderedMap α β} {key other : α} {value : β} :
    other ∈ map.insert key value ↔ other = key ∨ other ∈ map := by
  rw [← not_iff_not, ← get?_eq_none_iff, get?_insert, not_or, ← get?_eq_none_iff]
  split
  · rename_i same
    simp [same]
  · rename_i different
    simp [different]

/-- A table grows by a key that it did not have. -/
theorem OrderedMap.size_insert (map : OrderedMap α β) (key : α) (value : β) :
    (map.insert key value).size = if key ∈ map then map.size else map.size + 1 := by
  have size (map : OrderedMap α β) : map.size = map.keySet.size := (List.length_map _).symm
  have keys : (map.insert key value).keySet = map.keySet.insert key := by
    ext other
    rw [OrderedSet.mem_insert]
    exact OrderedMap.mem_insert
  rw [size, keys, OrderedSet.size_insert, size]
  rfl

end Collections

/-! ## What the order is -/

/-- Names are compared by their number of bytes, then byte by byte. This is a strict total order, and
only equal names are equal in it. So a set of identifiers in this order holds what is put into it next
to all that it held, a table holds every key apart, and both grow by each identifier that is new to
them. Names of a common front and a numeral compare as the numbers do. -/
theorem compareNames_exact :
    (∀ left right : String, compareNames left right =
      (compare (bytesOf left).length (bytesOf right).length).then
        (compare (bytesOf left) (bytesOf right))) ∧
    (∀ left right, compareNames right left = (compareNames left right).swap) ∧
    (∀ left right, compareNames left right = .eq ↔ left = right) ∧
    (∀ left middle right, compareNames left middle = .lt → compareNames middle right = .lt →
      compareNames left right = .lt) ∧
    (∀ (kind : IdKind) (left right : Ident kind),
      left < right ↔ compareNames left.text right.text = .lt) ∧
    (∀ (kind : IdKind) (set : OrderedSet (Ident kind)) (id : Ident kind),
      (set.toList.Pairwise fun left right => compareNames left.text right.text = .lt) ∧
      (∀ other, other ∈ set.insert id ↔ other = id ∨ other ∈ set) ∧
      (set.insert id).size = if id ∈ set then set.size else set.size + 1) ∧
    (∀ (kind : IdKind) (β : Type) (map : OrderedMap (Ident kind) β) (id : Ident kind) (value : β),
      (map.keys.Pairwise fun left right => compareNames left.text right.text = .lt) ∧
      (∀ other, (map.insert id value).get? other = if other = id then some value else map.get? other) ∧
      (map.insert id value).size = if id ∈ map then map.size else map.size + 1) ∧
    ∀ (front : String) (left right : Nat),
      compareNames (front ++ toString left) (front ++ toString right) = compare left right := by
  have ordered {kind : IdKind} (set : OrderedSet (Ident kind)) :
      set.toList.Pairwise fun left right => compareNames left.text right.text = .lt :=
    set.ascending.imp Ident.lt_iff_compareNames.mp
  refine ⟨fun left right => by rw [compareNames_eq]; rfl, compareNames_swap,
    fun _ _ => compareNames_eq_eq_iff, fun _ _ _ => compareNames_trans,
    fun _ _ _ => Ident.lt_iff_compareNames, ?_, ?_, ?_⟩
  · intro kind set id
    exact ⟨ordered set, fun _ => OrderedSet.mem_insert, set.size_insert id⟩
  · intro kind β map id value
    exact ⟨ordered map.keySet, fun other => map.get?_insert id other value, map.size_insert id value⟩
  · intro front left right
    rw [compareNames_append, compareNames_toString]

/-- A letter of two bytes comes after every name that is a byte shorter, and after digits. -/
theorem compareNames_exact_accented :
    compareNames ("P" ++ toString 9) ("P" ++ toString 10) = .lt ∧ compareNames "P10" "Pé" = .lt ∧
      compareNames "P9" "Pé" = .lt := by
  obtain ⟨bytes, _, _, trans, _, _, _, numbered⟩ := compareNames_exact
  have first := numbered "P" 9 10
  have second : compareNames "P10" "Pé" = .lt := by
    rw [bytes]
    decide
  exact ⟨first, second, trans "P9" "P10" "Pé" first second⟩

end ProcessFlow
