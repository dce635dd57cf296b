import ProcessFlow.Calendar.BusinessDay

/-! # Where a count of business days ends

The count ends on the business day that has that many business days between the start and itself.
It fails only if no stretch of days from the start on has more business days. A count in two parts
is the count of their sum, so a greater count ends on a later day.
-/

namespace ProcessFlow

namespace Day

variable {first next last : Day}

/-- The days from one on, as many as given, or as many as are representable. -/
def span (first : Day) : Nat → List Day
  | 0 => []
  | length + 1 => first :: first.next?.elim [] (span · length)

theorem span_succ_of_next (step : first.next? = some next) (length : Nat) :
    first.span (length + 1) = first :: next.span length := by
  rw [span, step, Option.elim_some]

theorem span_succ_of_last (step : first.next? = none) (length : Nat) :
    first.span (length + 1) = [first] := by
  rw [span, step, Option.elim_none]

/-- The days of a span are the next ones by number. -/
theorem mem_span {day : Day} {length : Nat} :
    day ∈ first.span length ↔ first ≤ day ∧ day.number < first.number + length := by
  rw [le_iff]
  induction length generalizing first with
  | zero =>
    rw [span]
    simp only [List.not_mem_nil, false_iff]
    omega
  | succ length ih =>
    have same : day = first ↔ day.number = first.number := Day.ext_iff
    cases step : first.next? with
    | none =>
      have number := next?_eq_none_iff.mp step
      have bound := day.le_last
      rw [span_succ_of_last step, List.mem_singleton, same]
      omega
    | some next =>
      have number := next?_eq_some_iff.mp step
      rw [span_succ_of_next step, List.mem_cons, ih, same]
      omega

/-- No day lies between a day and the next. -/
theorem next_le_iff (step : first.next? = some next) : next ≤ last ↔ first ≤ last ∧ last ≠ first := by
  have number := next?_eq_some_iff.mp step
  rw [le_iff, le_iff, Ne, Day.ext_iff]
  omega

/-- The next day is later. -/
theorem le_of_next? (step : first.next? = some next) : first ≤ next :=
  ((next_le_iff step).mp (Std.le_refl next)).1

theorem le_last_of_next?_eq_none (step : first.next? = none) (last : Day) : last ≤ first := by
  have number := next?_eq_none_iff.mp step
  have bound := last.le_last
  rw [le_iff]
  omega

/-- What holds of a day, and of every earlier one whose next day it holds of, holds of all days up to
that day. -/
theorem induction_before {last : Day} {motive : (first : Day) → first ≤ last → Prop}
    (here : motive last (Std.le_refl last))
    (onward : ∀ (day next : Day) (step : day.next? = some next) (later : next ≤ last),
      motive next later → motive day ((next_le_iff step).mp later).1)
    {first : Day} (before : first ≤ last) : motive first before := by
  by_cases same : last = first
  · subst same
    exact here
  · cases step : first.next? with
    | none => exact absurd (Std.le_antisymm (le_last_of_next?_eq_none step last) before) same
    | some next =>
      have later : next ≤ last := (next_le_iff step).mpr ⟨before, same⟩
      exact onward first next step later (induction_before here onward later)
termination_by first.daysLeft
decreasing_by exact daysLeft_next step

end Day

/-- How many business days there are from one day on, before another. -/
def businessDaysBetween (isBusinessDay : Day → Bool) (first last : Day) : Nat :=
  (first.span (last.number - first.number).toNat).countP isBusinessDay

variable {isBusinessDay : Day → Bool} {day next last : Day} {count : Nat}

@[simp] theorem businessDaysBetween_self (isBusinessDay : Day → Bool) (day : Day) :
    businessDaysBetween isBusinessDay day day = 0 := by
  simp [businessDaysBetween, Day.span]

theorem businessDaysBetween_of_next (step : day.next? = some next) (before : next ≤ last) :
    businessDaysBetween isBusinessDay day last =
      businessDaysBetween isBusinessDay next last + if isBusinessDay day then 1 else 0 := by
  have number := Day.next?_eq_some_iff.mp step
  have le := Day.le_iff.mp before
  have length : (last.number - day.number).toNat = (last.number - next.number).toNat + 1 := by omega
  rw [businessDaysBetween, length, Day.span_succ_of_next step, List.countP_cons, businessDaysBetween]

/-- A day after a business day has a business day between. -/
theorem businessDaysBetween_pos (business : isBusinessDay day = true) (before : day ≤ last)
    (later : last ≠ day) : 0 < businessDaysBetween isBusinessDay day last := by
  have less := Day.le_iff.mp before
  rw [businessDaysBetween, List.countP_pos_iff]
  refine ⟨day, Day.mem_span.mpr ⟨Std.le_refl day, ?_⟩, business⟩
  rw [Ne, Day.ext_iff] at later
  omega

/-- Counts over adjoining stretches add up. -/
theorem businessDaysBetween_add (isBusinessDay : Day → Bool) (middle : Day) (before : day ≤ middle)
    (after : middle ≤ last) :
    businessDaysBetween isBusinessDay day last =
      businessDaysBetween isBusinessDay day middle + businessDaysBetween isBusinessDay middle last := by
  induction before using Day.induction_before with
  | here => rw [businessDaysBetween_self, Nat.zero_add]
  | onward day next step later ih =>
    rw [businessDaysBetween_of_next step (Std.le_trans later after), ih,
      businessDaysBetween_of_next step later]
    omega

/-- Beyond a business day there are more business days behind than on it. -/
theorem businessDaysBetween_lt {later : Day} (business : isBusinessDay last = true)
    (before : day ≤ last) (beyond : last < later) :
    businessDaysBetween isBusinessDay day last < businessDaysBetween isBusinessDay day later := by
  have upTo := businessDaysBetween_add isBusinessDay last before (Std.le_of_lt beyond)
  have positive := businessDaysBetween_pos business (Std.le_of_lt beyond) (Std.ne_of_lt beyond).symm
  omega

/-- One day further there is one business day more if the day is one. -/
theorem businessDaysBetween_next (isBusinessDay : Day → Bool) (before : day ≤ last)
    (step : last.next? = some next) :
    businessDaysBetween isBusinessDay day next =
      businessDaysBetween isBusinessDay day last + if isBusinessDay last then 1 else 0 := by
  rw [businessDaysBetween_add isBusinessDay last before (Day.le_of_next? step),
    businessDaysBetween_of_next step (Std.le_refl next), businessDaysBetween_self, Nat.zero_add]

/-- A count ends on the business day with that many business days before it. -/
theorem addBusinessDays?_eq_some_iff : addBusinessDays? isBusinessDay day count = some last ↔
    isBusinessDay last = true ∧ day ≤ last ∧
      businessDaysBetween isBusinessDay day last = count := by
  fun_induction addBusinessDays? isBusinessDay day count with
  | case1 day count arrived =>
    obtain ⟨business, rfl⟩ : isBusinessDay day = true ∧ count = 0 := by simpa using arrived
    rw [Option.some.injEq]
    constructor
    · rintro rfl
      exact ⟨business, Std.le_refl day, businessDaysBetween_self isBusinessDay day⟩
    · rintro ⟨_, before, between⟩
      by_cases same : last = day
      · exact same.symm
      · have := businessDaysBetween_pos business before same
        omega
  | case2 day count onward step =>
    -- There is no later day, so the count could only end here, where it has not ended.
    constructor
    · nofun
    · rintro ⟨business, before, between⟩
      obtain rfl : day = last := Std.le_antisymm before (Day.le_last_of_next?_eq_none step last)
      rw [businessDaysBetween_self] at between
      rw [business, ← between] at onward
      exact absurd rfl onward
  | case3 day count onward next step ih =>
    rw [dite_eq_ite] at ih
    rw [ih, Day.next_le_iff step]
    constructor
    · rintro ⟨business, ⟨before, apart⟩, between⟩
      refine ⟨business, before, ?_⟩
      rw [businessDaysBetween_of_next step ((Day.next_le_iff step).mpr ⟨before, apart⟩), between]
      by_cases here : isBusinessDay day = true
      · have : count ≠ 0 := fun zero => onward (by simp [here, zero])
        simp only [here, if_true]
        omega
      · simp [here]
    · rintro ⟨business, before, between⟩
      have apart : last ≠ day := by
        rintro rfl
        rw [businessDaysBetween_self] at between
        rw [business, ← between] at onward
        exact absurd rfl onward
      refine ⟨business, ⟨before, apart⟩, ?_⟩
      rw [← between, businessDaysBetween_of_next step ((Day.next_le_iff step).mpr ⟨before, apart⟩)]
      split <;> simp

/-- A count ends if some stretch of days from the start on has more business days. -/
theorem exists_addBusinessDays? {length : Nat}
    (enough : count < (day.span length).countP isBusinessDay) :
    ∃ last, addBusinessDays? isBusinessDay day count = some last := by
  fun_induction addBusinessDays? isBusinessDay day count generalizing length with
  | case1 day count arrived => exact ⟨day, rfl⟩
  | case2 day count onward step =>
    cases length with
    | zero => exact absurd enough (Nat.not_lt_zero count)
    | succ length =>
      rw [Day.span_succ_of_last step, List.countP_singleton] at enough
      split at enough
      · rename_i business
        obtain rfl : count = 0 := by omega
        rw [business] at onward
        exact absurd rfl onward
      · exact absurd enough (Nat.not_lt_zero count)
  | case3 day count onward next step ih =>
    cases length with
    | zero => exact absurd enough (Nat.not_lt_zero count)
    | succ length =>
      rw [Day.span_succ_of_next step, List.countP_cons] at enough
      apply @ih length
      rw [dite_eq_ite]
      split
      · rename_i business
        have : count ≠ 0 := fun zero => onward (by simp [business, zero])
        rw [if_pos business] at enough
        omega
      · rename_i idle
        rwa [if_neg idle] at enough

theorem addBusinessDays?_of_last (onward : ¬(isBusinessDay day && count = 0) = true)
    (step : day.next? = none) : addBusinessDays? isBusinessDay day count = none := by
  rw [addBusinessDays?, if_neg onward]
  split
  · rfl
  · rename_i next found
    rw [step] at found
    cases found

theorem addBusinessDays?_of_next (onward : ¬(isBusinessDay day && count = 0) = true)
    (step : day.next? = some next) : addBusinessDays? isBusinessDay day count =
      addBusinessDays? isBusinessDay next (if isBusinessDay day then count - 1 else count) := by
  rw [addBusinessDays?, if_neg onward]
  split
  · rename_i found
    rw [step] at found
    cases found
  · rename_i other found
    rw [step] at found
    cases found
    rfl

/-- Where a count has not ended, a greater one has not. -/
theorem not_ended_add (onward : ¬(isBusinessDay day && count = 0) = true) (more : Nat) :
    ¬(isBusinessDay day && count + more = 0) = true := by
  intro ended
  apply onward
  rw [Bool.and_eq_true, decide_eq_true_eq] at ended ⊢
  exact ⟨ended.1, by omega⟩

/-- Counting in two parts is counting once. -/
theorem addBusinessDays?_add (more : Nat) : addBusinessDays? isBusinessDay day (count + more) =
    (addBusinessDays? isBusinessDay day count).bind (addBusinessDays? isBusinessDay · more) := by
  fun_induction addBusinessDays? isBusinessDay day count with
  | case1 day count arrived =>
    obtain ⟨_, rfl⟩ : isBusinessDay day = true ∧ count = 0 := by simpa using arrived
    rw [Nat.zero_add, Option.bind_some]
  | case2 day count onward step =>
    rw [addBusinessDays?_of_last (not_ended_add onward more) step, Option.bind_none]
  | case3 day count onward next step ih =>
    rw [dite_eq_ite] at ih
    rw [addBusinessDays?_of_next (not_ended_add onward more) step, ← ih]
    congr 1
    split
    · rename_i business
      have : count ≠ 0 := fun zero => onward (by simp [business, zero])
      omega
    · rfl

/-- A greater count ends on a later day. -/
theorem lt_of_addBusinessDays? {more : Nat} {other : Day}
    (reached : addBusinessDays? isBusinessDay day count = some last)
    (further : addBusinessDays? isBusinessDay day more = some other) (less : count < more) :
    last < other := by
  obtain ⟨rest, rfl⟩ := Nat.exists_eq_add_of_lt less
  rw [Nat.add_assoc, addBusinessDays?_add, reached, Option.bind_some,
    addBusinessDays?_eq_some_iff] at further
  obtain ⟨_, before, between⟩ := further
  apply Std.lt_of_le_of_ne before
  rintro rfl
  rw [businessDaysBetween_self] at between
  omega

/-- A greater count from a later day ends on a day that is no earlier. -/
theorem le_of_addBusinessDays? {more : Nat} {other : Day} (starts : day ≤ next)
    (counts : count ≤ more) (reached : addBusinessDays? isBusinessDay day count = some last)
    (further : addBusinessDays? isBusinessDay next more = some other) : last ≤ other := by
  obtain ⟨_, _, between⟩ := addBusinessDays?_eq_some_iff.mp reached
  obtain ⟨business, after, betweenOther⟩ := addBusinessDays?_eq_some_iff.mp further
  apply Std.not_lt.mp
  intro less
  -- The day reached first would have more business days before it than it has.
  have upTo := businessDaysBetween_add isBusinessDay next starts after
  have beyond := businessDaysBetween_lt business (Std.le_trans starts after) less
  omega

/-- Over days that are no business days, a later start changes no count. -/
theorem addBusinessDays?_of_idle (starts : day ≤ next)
    (idle : businessDaysBetween isBusinessDay day next = 0) (count : Nat) :
    addBusinessDays? isBusinessDay day count = addBusinessDays? isBusinessDay next count := by
  ext last
  rw [addBusinessDays?_eq_some_iff, addBusinessDays?_eq_some_iff]
  apply and_congr_right
  intro business
  constructor
  · rintro ⟨before, between⟩
    have after : next ≤ last := by
      apply Std.not_lt.mp
      intro less
      have beyond := businessDaysBetween_lt business before less
      omega
    have upTo := businessDaysBetween_add isBusinessDay next starts after
    exact ⟨after, by omega⟩
  · rintro ⟨after, between⟩
    have upTo := businessDaysBetween_add isBusinessDay next starts after
    exact ⟨Std.le_trans starts after, by omega⟩

/-- If a greater count from a later day ends on the same day, the counts are equal, and there is no
business day from the one start on before the other. -/
theorem eq_of_addBusinessDays? {more : Nat} (starts : day ≤ next) (counts : count ≤ more)
    (reached : addBusinessDays? isBusinessDay day count = some last)
    (further : addBusinessDays? isBusinessDay next more = some last) :
    count = more ∧ businessDaysBetween isBusinessDay day next = 0 := by
  obtain ⟨_, _, between⟩ := addBusinessDays?_eq_some_iff.mp reached
  obtain ⟨_, after, betweenOther⟩ := addBusinessDays?_eq_some_iff.mp further
  have upTo := businessDaysBetween_add isBusinessDay next starts after
  omega

end ProcessFlow
