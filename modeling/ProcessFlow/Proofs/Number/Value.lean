import Mathlib.Algebra.Order.Floor.Semifield
import Mathlib.Data.Rat.Floor
import ProcessFlow.Proofs.Number.Order
import ProcessFlow.Proofs.Number.Rounding

/-! # The value of a double

A finite double stands for a rational number. Numbers that are not negative are in the order of
their values, their whole part is the floor, and what they have beyond the floor is a double itself.
So the share that a number takes of a length is the floor of one rounded product, and a greater
fraction takes no lesser share.
-/

namespace ProcessFlow

namespace Binary64

variable {number other : Binary64}

/-- The number that a finite double stands for. -/
def value (number : Binary64) : ℚ :=
  (if number.negative then -(number.units : ℚ) else number.units) / unitsPerOne

theorem unitsPerOne_cast_pos : (0 : ℚ) < unitsPerOne := Nat.cast_pos.mpr unitsPerOne_pos

theorem unitsOf_zero : unitsOf 0 = 0 := unitsOf_of_lt binadeSize_pos

theorem units_eq_zero_iff : number.units = 0 ↔ number.magnitude = 0 := by
  rw [units, ← unitsOf_zero]
  exact unitsOf_strictMono.injective.eq_iff

theorem value_nonneg_iff : 0 ≤ number.value ↔ number.negative = false ∨ number.units = 0 := by
  rw [value, le_div_iff₀ unitsPerOne_cast_pos, zero_mul]
  cases number.negative with
  | false => simp
  | true => simp

/-- A number that is not negative is its size. -/
theorem value_of_nonneg (nonneg : 0 ≤ number.value) :
    number.value = (number.units : ℚ) / unitsPerOne := by
  rw [value]
  rcases value_nonneg_iff.mp nonneg with positive | zero
  · simp [positive]
  · simp [zero]

/-- The two tests for a number that is not negative agree. -/
theorem rank_nonneg_iff : 0 ≤ number.rank ↔ 0 ≤ number.value := by
  rw [value_nonneg_iff, units_eq_zero_iff, rank]
  cases number.negative with
  | false => simp
  | true =>
    simp only [if_true, Bool.true_eq_false, false_or]
    omega

theorem rank_of_nonneg (nonneg : 0 ≤ number.value) : number.rank = number.magnitude := by
  rw [value_nonneg_iff, units_eq_zero_iff] at nonneg
  rw [rank]
  rcases nonneg with positive | zero
  · simp [positive]
  · simp [zero]

theorem rank_lt_rank_iff (nonneg : 0 ≤ number.value) (nonnegOther : 0 ≤ other.value) :
    number.rank < other.rank ↔ number.value < other.value := by
  rw [rank_of_nonneg nonneg, rank_of_nonneg nonnegOther, value_of_nonneg nonneg,
    value_of_nonneg nonnegOther, div_lt_div_iff_of_pos_right unitsPerOne_cast_pos, Nat.cast_lt,
    Nat.cast_lt, units, units, unitsOf_strictMono.lt_iff_lt]

/-- Comparison is that of values. -/
theorem value_le_of_atLeast (nonneg : 0 ≤ number.value) (nonnegOther : 0 ≤ other.value)
    (le : other.atLeast number = true) : number.value ≤ other.value := by
  apply not_lt.mp
  intro less
  have lower := (rank_lt_rank_iff nonnegOther nonneg).mpr less
  exact Int.not_le.mpr lower (atLeast_iff.mp le).2.2

/-- The whole part of a number that is not negative is its floor. -/
theorem floor_value (nonneg : 0 ≤ number.value) : ⌊number.value⌋₊ = number.wholePart := by
  rw [value_of_nonneg nonneg, Nat.floor_div_eq_div, wholePart]

theorem fract_value (nonneg : 0 ≤ number.value) :
    Int.fract number.value = (number.fractionUnits : ℚ) / unitsPerOne := by
  rw [value_of_nonneg nonneg, Int.fract_div_natCast_eq_div_natCast_mod, fractionUnits]

/-- Of two numbers with one floor the greater one has the greater fraction. -/
theorem fractionUnits_le (nonneg : 0 ≤ number.value) (le : number.value ≤ other.value)
    (same : ⌊number.value⌋₊ = ⌊other.value⌋₊) : number.fractionUnits ≤ other.fractionUnits := by
  have nonnegOther : 0 ≤ other.value := le_trans nonneg le
  rw [floor_value nonneg, floor_value nonnegOther] at same
  rw [value_of_nonneg nonneg, value_of_nonneg nonnegOther,
    div_le_div_iff_of_pos_right unitsPerOne_cast_pos, Nat.cast_le] at le
  have split : unitsPerOne * number.wholePart + number.fractionUnits = number.units :=
    Nat.div_add_mod ..
  have splitOther : unitsPerOne * other.wholePart + other.fractionUnits = other.units :=
    Nat.div_add_mod ..
  rw [same] at split
  omega

/-! ## Exact doubles -/

/-- Natural numbers of 53 bits are doubles. -/
theorem ofNat_exact {natural : Nat} (small : natural < 2 ^ 53) :
    (ofNat natural).isFinite = true ∧ (ofNat natural).units = natural * unitsPerOne := by
  have quotient : natural * unitsPerOne = natural * 2 ^ 1074 * 1 := by
    rw [Nat.mul_one, ← unitsPerOne_eq]
  obtain ⟨finite, exact⟩ := nearestMagnitude_exact Nat.one_pos quotient small (by decide)
  rw [← unitsPerOne_eq] at exact
  exact ⟨decide_eq_true finite, exact⟩

theorem value_ofNat {natural : Nat} (small : natural < 2 ^ 53) : (ofNat natural).value = natural := by
  have positive : (ofNat natural).negative = false := rfl
  have nonneg := value_nonneg_iff.mpr (.inl positive)
  rw [value_of_nonneg nonneg, (ofNat_exact small).2, Nat.cast_mul]
  exact mul_div_cancel_right₀ _ (ne_of_gt unitsPerOne_cast_pos)

/-- What a number has beyond its floor, which is a double itself. -/
def fraction (number : Binary64) : Binary64 := ofRatio false number.fractionUnits unitsPerOne

theorem unitsPerOne_dvd {scale : Nat} (coarse : 1074 ≤ scale) : unitsPerOne ∣ 2 ^ scale := by
  -- The exponent is a variable here, as Lean would try to evaluate the power of the number.
  have divides (low : Nat) (le : low ≤ scale) : 2 ^ low ∣ 2 ^ scale := Nat.pow_dvd_pow 2 le
  exact unitsPerOne_eq.dvd.trans (divides 1074 coarse)

/-- A size has 53 bits on some scale, and so has what it leaves over of whole numbers. -/
theorem exists_significand_fractionUnits (number : Binary64) : ∃ significand scale,
    number.fractionUnits = significand * 2 ^ scale ∧ significand < 2 ^ 53 ∧ scale ≤ 2044 := by
  obtain ⟨scale, significand, magnitude, below, normal⟩ := exists_scale number.magnitude
  have units : number.units = significand * 2 ^ scale := by
    rw [Binary64.units, magnitude, unitsOf_scaled (Nat.le_of_lt below) normal]
  have bits : significand < 2 ^ 53 := below
  rw [fractionUnits, units]
  rcases Nat.lt_or_ge scale 1074 with fine | coarse
  · have split : unitsPerOne = 2 ^ (1074 - scale) * 2 ^ scale := by
      rw [unitsPerOne_eq, Nat.pow_sub_mul_pow 2 (Nat.le_of_lt fine)]
    refine ⟨significand % 2 ^ (1074 - scale), scale, ?_, ?_, by omega⟩
    · rw [split, Nat.mul_mod_mul_right]
    · exact Nat.lt_of_le_of_lt (Nat.mod_le _ _) bits
  · refine ⟨0, 0, ?_, by decide, by decide⟩
    rw [Nat.zero_mul]
    exact Nat.mod_eq_zero_of_dvd (Nat.dvd_mul_left_of_dvd (unitsPerOne_dvd coarse) significand)

theorem fraction_exact (number : Binary64) :
    number.fraction.isFinite = true ∧ number.fraction.units = number.fractionUnits := by
  obtain ⟨significand, scale, split, bits, fits⟩ := number.exists_significand_fractionUnits
  have quotient : number.fractionUnits * unitsPerOne = significand * 2 ^ scale * unitsPerOne := by
    rw [split]
  obtain ⟨finite, exact⟩ := nearestMagnitude_exact unitsPerOne_pos quotient bits fits
  exact ⟨decide_eq_true finite, exact.trans split.symm⟩

/-- Taking the floor away rounds nothing. -/
theorem value_fraction (nonneg : 0 ≤ number.value) :
    number.fraction.value = Int.fract number.value := by
  have positive : number.fraction.negative = false := rfl
  rw [fract_value nonneg, value_of_nonneg (value_nonneg_iff.mpr (.inl positive)), number.fraction_exact.2]

/-! ## Shares of a length -/

theorem units_ofRatio (negative : Bool) (numerator denominator : Nat) :
    (ofRatio negative numerator denominator).units =
      unitsOf (nearestMagnitude numerator denominator) := rfl

theorem isInfinite_of_isFinite (finite : number.isFinite = true) : number.isInfinite = false := by
  simp only [isFinite, isInfinite, decide_eq_true_eq, decide_eq_false_iff_not] at finite ⊢
  omega

/-- The product of finite numbers is the double nearest to it. -/
theorem mul_of_isFinite (finite : number.isFinite = true) (finiteOther : other.isFinite = true) :
    number.mul other = ofRatio (number.negative != other.negative) (number.units * other.units)
      (unitsPerOne * unitsPerOne) := by
  simp only [mul, isNaN_of_isFinite finite, isNaN_of_isFinite finiteOther,
    isInfinite_of_isFinite finite, isInfinite_of_isFinite finiteOther, Bool.or_self,
    Bool.false_eq_true, if_false]

/-- A share of a length is the floor of the rounded product. -/
theorem shareOf_eq {length : Nat} (small : length < 2 ^ 53) :
    number.shareOf length = ⌊((ofNat length).mul number.fraction).value⌋₊ := by
  obtain ⟨finite, lengthUnits⟩ := ofNat_exact small
  obtain ⟨finiteFraction, fractionUnits⟩ := number.fraction_exact
  have positive : ((ofNat length).mul number.fraction).negative = false := by
    rw [mul_of_isFinite finite finiteFraction]
    rfl
  rw [floor_value (value_nonneg_iff.mpr (.inl positive)), mul_of_isFinite finite finiteFraction,
    lengthUnits, fractionUnits, Nat.mul_right_comm, Nat.mul_comm _ unitsPerOne, wholePart,
    units_ofRatio, nearestMagnitude_mul unitsPerOne_pos, shareOf]

/-- A greater fraction takes no lesser share. -/
theorem shareOf_mono (length : Nat) (le : number.fractionUnits ≤ other.fractionUnits) :
    number.shareOf length ≤ other.shareOf length := by
  apply Nat.div_le_div_right
  apply unitsOf_strictMono.monotone
  exact nearestMagnitude_mono unitsPerOne_pos (Nat.mul_le_mul_left length le)

end Binary64

end ProcessFlow
