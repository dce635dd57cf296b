import Mathlib.Algebra.Order.Floor.Semifield
import Mathlib.Data.Nat.Log
import ProcessFlow.Number.Binary64

/-! # Rounding to the nearest double

The scale of a rounding is the power of two by which the quotient is measured; the rounded quotient
is a significand on this scale. Significands on a coarser scale stand for greater values, so rounding
keeps the order. A whole multiple of the smallest value that has no bits below its scale is a double
itself and is not changed.
-/

namespace ProcessFlow

namespace Binary64

theorem binadeSize_eq : binadeSize = 2 ^ 52 := by decide

theorem unitsPerOne_pos : 0 < unitsPerOne := by decide

theorem unitsPerOne_eq : unitsPerOne = 2 ^ 1074 := by
  have shifted (count : Nat) : 1 <<< count = 2 ^ count := Nat.one_shiftLeft count
  exact shifted 1074

/-! ## Rounding a quotient -/

section Quotient

variable {numerator larger denominator bound : Nat}

theorem roundDiv_le (positive : 0 < denominator) (below : numerator ≤ bound * denominator) :
    roundDiv numerator denominator ≤ bound := by
  have quotient : numerator / denominator ≤ bound := Nat.div_le_of_le_mul (by rwa [Nat.mul_comm])
  have split := Nat.div_add_mod numerator denominator
  simp only [roundDiv]
  split
  · rename_i up
    apply Nat.lt_of_le_of_ne quotient
    rintro rfl
    rw [Nat.mul_comm] at split
    omega
  · exact quotient

theorem le_roundDiv (positive : 0 < denominator) (above : bound * denominator ≤ numerator) :
    bound ≤ roundDiv numerator denominator := by
  have quotient : bound ≤ numerator / denominator := (Nat.le_div_iff_mul_le positive).mpr above
  simp only [roundDiv]
  split <;> omega

theorem roundDiv_mul (positive : 0 < denominator) (quotient : Nat) :
    roundDiv (quotient * denominator) denominator = quotient :=
  Nat.le_antisymm (roundDiv_le positive (Nat.le_refl _)) (le_roundDiv positive (Nat.le_refl _))

theorem roundDiv_mono (positive : 0 < denominator) (le : numerator ≤ larger) :
    roundDiv numerator denominator ≤ roundDiv larger denominator := by
  rcases Nat.lt_or_ge (numerator / denominator) (larger / denominator) with less | same
  · -- The rounded quotient is at most the next whole number, which the larger one has reached.
    have upper : numerator ≤ larger / denominator * denominator :=
      Nat.le_of_lt ((Nat.div_lt_iff_lt_mul positive).mp less)
    exact Nat.le_trans (roundDiv_le positive upper)
      (le_roundDiv positive (Nat.div_mul_le_self larger denominator))
  · have quotients : numerator / denominator = larger / denominator :=
      Nat.le_antisymm (Nat.div_le_div_right le) same
    have split := Nat.div_add_mod numerator denominator
    have splitLarger := Nat.div_add_mod larger denominator
    rw [← quotients] at splitLarger
    simp only [roundDiv, ← quotients]
    split
    · split <;> omega
    · split <;> omega

theorem roundDiv_scale {scale : Nat} (positive : 0 < scale) :
    roundDiv (scale * numerator) (scale * denominator) = roundDiv numerator denominator := by
  have double : scale * denominator < 2 * (scale * (numerator % denominator)) ↔
      denominator < 2 * (numerator % denominator) := by
    rw [Nat.mul_left_comm]
    exact Nat.mul_lt_mul_left positive
  have half : scale * denominator = 2 * (scale * (numerator % denominator)) ↔
      denominator = 2 * (numerator % denominator) := by
    rw [Nat.mul_left_comm]
    exact Nat.mul_right_inj (Nat.ne_of_gt positive)
  simp only [roundDiv, Nat.mul_div_mul_left _ _ positive, Nat.mul_mod_mul_left, double, half]

end Quotient

/-! ## Magnitudes by scale and significand -/

theorem binadeSize_pos : 0 < binadeSize := by decide

theorem unitsOf_of_lt {magnitude : Nat} (small : magnitude < binadeSize) :
    unitsOf magnitude = magnitude := if_pos small

theorem unitsOf_normal {scale rest : Nat} (inside : rest < binadeSize) :
    unitsOf ((scale + 1) * binadeSize + rest) = (binadeSize + rest) * 2 ^ scale := by
  have quotient : ((scale + 1) * binadeSize + rest) / binadeSize = scale + 1 := by
    rw [Nat.mul_comm, Nat.mul_add_div binadeSize_pos, Nat.div_eq_of_lt inside, Nat.add_zero]
  have remainder : ((scale + 1) * binadeSize + rest) % binadeSize = rest := by
    rw [Nat.mul_comm, Nat.mul_add_mod, Nat.mod_eq_of_lt inside]
  have large : ¬(scale + 1) * binadeSize + rest < binadeSize := by
    rw [Nat.add_mul]
    omega
  rw [unitsOf, if_neg large, quotient, remainder, Nat.add_sub_cancel, Nat.shiftLeft_eq]

/-- A significand on a scale stands for itself times the power of two. -/
theorem unitsOf_scaled {scale significand : Nat} (most : significand ≤ 2 * binadeSize)
    (normal : scale = 0 ∨ binadeSize ≤ significand) :
    unitsOf (scale * binadeSize + significand) = significand * 2 ^ scale := by
  rcases Nat.lt_or_ge significand binadeSize with small | large
  · obtain rfl : scale = 0 := by omega
    rw [Nat.zero_mul, Nat.zero_add, unitsOf_of_lt small, Nat.pow_zero, Nat.mul_one]
  · rcases Nat.lt_or_eq_of_le most with less | full
    · have parts : scale * binadeSize + significand =
          (scale + 1) * binadeSize + (significand - binadeSize) := by
        rw [Nat.add_mul]
        omega
      rw [parts, unitsOf_normal (by omega), Nat.add_sub_cancel' large]
    · -- The significand has reached the next power of two, the least one of the next scale.
      have parts : scale * binadeSize + significand = (scale + 1 + 1) * binadeSize + 0 := by
        rw [full, Nat.add_mul, Nat.add_mul]
        omega
      rw [parts, unitsOf_normal binadeSize_pos, full, Nat.add_zero, Nat.pow_succ,
        Nat.mul_comm (2 ^ scale), ← Nat.mul_assoc, Nat.mul_comm binadeSize]

/-- Every magnitude is a significand on a scale. -/
theorem exists_scale (magnitude : Nat) : ∃ scale significand,
    magnitude = scale * binadeSize + significand ∧ significand < 2 * binadeSize ∧
      (scale = 0 ∨ binadeSize ≤ significand) := by
  have split := Nat.div_add_mod magnitude binadeSize
  have below := Nat.mod_lt magnitude binadeSize_pos
  rw [Nat.mul_comm] at split
  cases quotient : magnitude / binadeSize with
  | zero =>
    rw [quotient] at split
    exact ⟨0, magnitude % binadeSize, by omega, by omega, .inl rfl⟩
  | succ scale =>
    rw [quotient, Nat.add_mul] at split
    exact ⟨scale, binadeSize + magnitude % binadeSize, by omega, by omega, .inr (by omega)⟩

theorem unitsOf_lt_succ (magnitude : Nat) : unitsOf magnitude < unitsOf (magnitude + 1) := by
  obtain ⟨scale, significand, rfl, below, normal⟩ := exists_scale magnitude
  rw [Nat.add_assoc, unitsOf_scaled (Nat.le_of_lt below) normal,
    unitsOf_scaled below (normal.imp_right (Nat.le_succ_of_le ·))]
  exact Nat.mul_lt_mul_of_pos_right (Nat.lt_succ_self _) (Nat.two_pow_pos scale)

/-- Greater magnitudes stand for greater values. -/
theorem unitsOf_strictMono : StrictMono unitsOf := strictMono_nat_of_lt_succ unitsOf_lt_succ

/-! ## Rounding to a magnitude -/

section Magnitude

variable {numerator larger denominator : Nat}

/-- The power of two by which a quotient is measured. -/
def scaleOf (numerator denominator : Nat) : Nat := (numerator * unitsPerOne / denominator).log2 - 52

/-- The quotient on its scale, rounded to a whole number. -/
def significandOf (numerator denominator : Nat) : Nat :=
  roundDiv (numerator * unitsPerOne) (denominator * 2 ^ scaleOf numerator denominator)

theorem nearestMagnitude_eq : nearestMagnitude numerator denominator =
    min (scaleOf numerator denominator * binadeSize + significandOf numerator denominator)
      infinityMagnitude := by
  rw [nearestMagnitude, significandOf, ← Nat.shiftLeft_eq, scaleOf]

theorem significandOf_le (numerator : Nat) (positive : 0 < denominator) :
    significandOf numerator denominator ≤ 2 * binadeSize := by
  apply roundDiv_le (Nat.mul_pos positive (Nat.two_pow_pos _))
  have above : numerator * unitsPerOne / denominator < 2 ^ (53 + scaleOf numerator denominator) := by
    apply Nat.lt_of_lt_of_le Nat.lt_log2_self
    apply Nat.pow_le_pow_right (by decide)
    rw [scaleOf]
    omega
  have bits : 2 * binadeSize = 2 ^ 53 := by decide
  rw [bits, Nat.mul_left_comm, ← Nat.pow_add, Nat.mul_comm denominator]
  exact Nat.le_of_lt ((Nat.div_lt_iff_lt_mul positive).mp above)

theorem le_significandOf (numerator : Nat) (positive : 0 < denominator) :
    scaleOf numerator denominator = 0 ∨ binadeSize ≤ significandOf numerator denominator := by
  rcases Nat.eq_zero_or_pos (scaleOf numerator denominator) with fine | coarse
  · exact .inl fine
  · apply Or.inr
    apply le_roundDiv (Nat.mul_pos positive (Nat.two_pow_pos _))
    have solid : numerator * unitsPerOne / denominator ≠ 0 := by
      intro zero
      rw [scaleOf, zero] at coarse
      exact absurd coarse (by decide)
    have bits : 52 + scaleOf numerator denominator = (numerator * unitsPerOne / denominator).log2 := by
      rw [scaleOf] at coarse ⊢
      omega
    rw [binadeSize_eq, Nat.mul_left_comm, ← Nat.pow_add, bits, Nat.mul_comm denominator]
    exact (Nat.le_div_iff_mul_le positive).mp (Nat.log2_self_le solid)

theorem scaleOf_mono (denominator : Nat) (le : numerator ≤ larger) :
    scaleOf numerator denominator ≤ scaleOf larger denominator := by
  apply Nat.sub_le_sub_right
  rw [Nat.log2_eq_log_two, Nat.log2_eq_log_two]
  exact Nat.log_mono_right (Nat.div_le_div_right (Nat.mul_le_mul_right _ le))

/-- Rounding keeps the order. -/
theorem nearestMagnitude_mono (positive : 0 < denominator) (le : numerator ≤ larger) :
    nearestMagnitude numerator denominator ≤ nearestMagnitude larger denominator := by
  rw [nearestMagnitude_eq, nearestMagnitude_eq]
  apply min_le_min_right infinityMagnitude
  rcases Nat.lt_or_eq_of_le (scaleOf_mono denominator le) with finer | same
  · -- The finer scale ends where the next coarser one begins.
    have most := significandOf_le numerator positive
    have least := (le_significandOf larger positive).resolve_left (by omega)
    have step := Nat.mul_le_mul_right binadeSize finer
    rw [Nat.succ_mul] at step
    omega
  · rw [same]
    apply Nat.add_le_add_left
    rw [significandOf, significandOf, same]
    exact roundDiv_mono (Nat.mul_pos positive (Nat.two_pow_pos _)) (Nat.mul_le_mul_right _ le)

/-- A common factor of a quotient does not matter. -/
theorem nearestMagnitude_mul {factor : Nat} (positive : 0 < factor) :
    nearestMagnitude (factor * numerator) (factor * denominator) =
      nearestMagnitude numerator denominator := by
  have scales : scaleOf (factor * numerator) (factor * denominator) =
      scaleOf numerator denominator := by
    rw [scaleOf, Nat.mul_assoc, Nat.mul_div_mul_left _ _ positive, scaleOf]
  rw [nearestMagnitude_eq, nearestMagnitude_eq, scales, significandOf, scales, Nat.mul_assoc,
    Nat.mul_assoc, roundDiv_scale positive, significandOf]

/-- A value of 53 bits on some scale is measured by no coarser one. -/
theorem log2_le_of_lt {significand : Nat} (scale : Nat) (bits : significand < 2 ^ 53) :
    (significand * 2 ^ scale).log2 ≤ 52 + scale := by
  rcases Nat.eq_zero_or_pos significand with rfl | solid
  · rw [Nat.zero_mul, Nat.log2_zero]
    exact Nat.zero_le _
  · have positive : significand * 2 ^ scale ≠ 0 :=
      Nat.ne_of_gt (Nat.mul_pos solid (Nat.two_pow_pos scale))
    have below : significand * 2 ^ scale < 2 ^ (53 + scale) := by
      rw [Nat.pow_add]
      exact Nat.mul_lt_mul_of_pos_right bits (Nat.two_pow_pos scale)
    have := (Nat.log2_lt positive).mpr below
    omega

/-- A value of 53 bits on some scale is a double, and rounding does not change it. -/
theorem nearestMagnitude_exact {significand scale : Nat} (positive : 0 < denominator)
    (quotient : numerator * unitsPerOne = significand * 2 ^ scale * denominator)
    (bits : significand < 2 ^ 53) (fits : scale ≤ 2044) :
    nearestMagnitude numerator denominator < infinityMagnitude ∧
      unitsOf (nearestMagnitude numerator denominator) = significand * 2 ^ scale := by
  have value : numerator * unitsPerOne / denominator = significand * 2 ^ scale := by
    rw [quotient, Nat.mul_div_cancel _ positive]
  have scaleEq : scaleOf numerator denominator = (significand * 2 ^ scale).log2 - 52 := by
    rw [scaleOf, value]
  have finer : scaleOf numerator denominator ≤ scale := by
    have := log2_le_of_lt scale bits
    omega
  obtain ⟨whole, parts⟩ : 2 ^ scaleOf numerator denominator ∣ significand * 2 ^ scale :=
    Nat.dvd_mul_left_of_dvd (Nat.pow_dvd_pow 2 finer) significand
  have significandEq : significandOf numerator denominator = whole := by
    have regroup : significand * 2 ^ scale * denominator =
        whole * (denominator * 2 ^ scaleOf numerator denominator) := by
      rw [parts, Nat.mul_comm _ whole, Nat.mul_assoc, Nat.mul_comm denominator]
    rw [significandOf, quotient, regroup]
    exact roundDiv_mul (Nat.mul_pos positive (Nat.two_pow_pos _)) whole
  have most := significandOf_le numerator positive
  have normal := le_significandOf numerator positive
  have small : scaleOf numerator denominator * binadeSize + significandOf numerator denominator <
      infinityMagnitude := by
    have := Nat.mul_le_mul_right binadeSize (Nat.le_trans finer fits)
    have := binadeSize_pos
    rw [infinityMagnitude]
    omega
  rw [nearestMagnitude_eq, Nat.min_eq_left (Nat.le_of_lt small)]
  refine ⟨small, ?_⟩
  rw [unitsOf_scaled most normal, significandEq, parts, Nat.mul_comm]

end Magnitude

end Binary64

end ProcessFlow
