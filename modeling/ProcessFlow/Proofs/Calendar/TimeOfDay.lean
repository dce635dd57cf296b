import ProcessFlow.Calendar.TimeOfDay

/-! # The sum of a time and a length

A sum stays within the leap second that it starts from, or it is an ordinary time at the position
that the length leads to, less the second that a leap second left behind has taken. Sums are in the
order of their lengths. When a day closes at an ordinary time, a sum from its opening on is before
closing exactly if its length is less than that of the day. When it closes within a leap second, no
sum leads to the part of the day in that leap second, unless the day opens in it.
-/

namespace ProcessFlow

namespace TimeOfDay

variable {time reached other closing : TimeOfDay} {length longer : Duration}

theorem isLeap_iff : time.isLeap = true ↔ nanosPerSecond ≤ time.nano := decide_eq_true_iff

theorem isLeap_eq_false_iff : time.isLeap = false ↔ time.nano < nanosPerSecond := by
  rw [isLeap, decide_eq_false_iff_not, Nat.not_le]

theorem ofPosition?_eq_some_iff {position : Int} : ofPosition? position = some time ↔
    time.nano < nanosPerSecond ∧ (time.position : Int) = position := by
  obtain ⟨second, nano, second_lt, nano_lt, _⟩ := time
  unfold ofPosition?
  split
  · simp only [Option.some.injEq, mk.injEq, TimeOfDay.position, nanosPerSecond]
    omega
  · rename_i outside
    simp only [reduceCtorEq, false_iff, TimeOfDay.position]
    unfold nanosPerSecond secondsPerDay at *
    omega

theorem position_lt (ordinary : time.nano < nanosPerSecond) :
    time.position < secondsPerDay * nanosPerSecond := by
  have := time.second_lt
  unfold position nanosPerSecond secondsPerDay at *
  omega

/-- The positions of a day are those of its ordinary times. -/
theorem exists_ofPosition? {position : Int} (inside : 0 ≤ position)
    (within : position < secondsPerDay * nanosPerSecond) : ∃ time, ofPosition? position = some time := by
  unfold ofPosition?
  rw [dif_pos ⟨inside, within⟩]
  exact ⟨_, rfl⟩

theorem withinLeap?_eq_some_iff {leap : nanosPerSecond ≤ time.nano} {nano : Int} :
    time.withinLeap? leap nano = some reached ↔
      reached.second = time.second ∧ (reached.nano : Int) = nano ∧
        nanosPerSecond ≤ reached.nano := by
  obtain ⟨second, part, second_lt, nano_lt, _⟩ := reached
  unfold withinLeap?
  split
  · simp only [Option.some.injEq, mk.injEq]
    omega
  · simp only [reduceCtorEq, false_iff]
    omega

theorem withinLeap?_eq_none_iff {leap : nanosPerSecond ≤ time.nano} {nano : Int} :
    time.withinLeap? leap nano = none ↔ nano < nanosPerSecond ∨ 2 * nanosPerSecond ≤ nano := by
  unfold withinLeap?
  split
  · simp only [reduceCtorEq, false_iff]
    omega
  · simp only [true_iff]
    omega

/-- How a time and the time a length later lie to each other. -/
inductive Reaches (time : TimeOfDay) (length : Int) (reached : TimeOfDay) : Prop where
  /-- Between ordinary times the length is the difference of positions. -/
  | ordinary (before : time.nano < nanosPerSecond) (after : reached.nano < nanosPerSecond)
    (position : (reached.position : Int) = time.position + length)
  /-- The length does not lead out of the leap second. -/
  | within (same : reached.second = time.second)
    (nano : (reached.nano : Int) = time.nano + length) (leap : nanosPerSecond ≤ reached.nano)
    (before : nanosPerSecond ≤ time.nano)
  /-- The length leads back to before the leap second. -/
  | back (before : nanosPerSecond ≤ time.nano) (after : reached.nano < nanosPerSecond)
    (below : (time.nano : Int) + length < nanosPerSecond)
    (position : (reached.position : Int) = time.position + length)
  /-- The length leads out of the leap second, which takes a second of it. -/
  | past (before : nanosPerSecond ≤ time.nano) (after : reached.nano < nanosPerSecond)
    (beyond : 2 * nanosPerSecond ≤ (time.nano : Int) + length)
    (position : (reached.position : Int) = time.position + length - nanosPerSecond)

theorem add?_eq_some_iff : time.add? length = some reached ↔
    time.Reaches length.nanoseconds reached := by
  have bound := reached.nano_lt
  unfold add?
  split
  · rename_i leap
    simp only [Option.or_eq_some_iff, withinLeap?_eq_some_iff, withinLeap?_eq_none_iff,
      ofPosition?_eq_some_iff]
    constructor
    · rintro (⟨same, nano, stays⟩ | ⟨below | beyond, after, position⟩)
      · exact .within same nano stays leap
      · rw [if_pos below] at position
        exact .back leap after below position
      · rw [if_neg (by omega)] at position
        exact .past leap after beyond position
    · intro reaches
      cases reaches with
      | ordinary before => omega
      | within same nano stays => exact .inl ⟨same, nano, stays⟩
      | back _ after below position => exact .inr ⟨.inl below, after, by rwa [if_pos below]⟩
      | past _ after beyond position =>
        exact .inr ⟨.inr beyond, after, by rwa [if_neg (by omega)]⟩
  · rename_i ordinary
    rw [ofPosition?_eq_some_iff]
    constructor
    · rintro ⟨after, position⟩
      exact .ordinary (by omega) after position
    · intro reaches
      cases reaches with
      | ordinary _ after position => exact ⟨after, position⟩
      | within => omega
      | back => omega
      | past => omega

theorem reaches_zero (time : TimeOfDay) : time.Reaches 0 time := by
  rcases Nat.lt_or_ge time.nano nanosPerSecond with ordinary | leap
  · exact .ordinary ordinary ordinary (Int.add_zero _).symm
  · exact .within rfl (Int.add_zero _).symm leap leap

/-- A length that is not negative does not lead back. -/
theorem Reaches.le {nanoseconds : Int} (reaches : time.Reaches nanoseconds reached)
    (forward : 0 ≤ nanoseconds) : time ≤ reached := by
  rw [le_iff]
  cases reaches with
  | ordinary before after position =>
    unfold TimeOfDay.position nanosPerSecond at *
    omega
  | within same nano => omega
  | back before after below =>
    omega
  | past before after beyond position =>
    unfold TimeOfDay.position nanosPerSecond at *
    omega

/-- Of two lengths the longer one leads no less far. -/
theorem Reaches.mono {nanoseconds more : Int} (reaches : time.Reaches nanoseconds reached)
    (further : time.Reaches more other) (longer : nanoseconds ≤ more) : reached ≤ other := by
  have bound := other.nano_lt
  rw [le_iff]
  cases reaches <;> cases further <;> unfold TimeOfDay.position nanosPerSecond at * <;> omega

/-- Up to an ordinary time that is not before it, a leap second counts for a second more than its
position says. -/
theorem since_of_ordinary (ordinary : closing.nano < nanosPerSecond) :
    (closing.since time).nanoseconds = (closing.position : Int) - time.position +
      (if time.second < closing.second ∧ nanosPerSecond ≤ time.nano then nanosPerSecond else 0) := by
  have notLeap : closing.isLeap = false := isLeap_eq_false_iff.mpr ordinary
  unfold since
  simp only [isLeap_iff, notLeap, Bool.false_eq_true, and_false, if_false]
  split <;> simp

/-- With an ordinary closing time, a time is before closing exactly if the length that leads to it
is less than the length up to closing. -/
theorem Reaches.lt_closing_iff {nanoseconds : Int} (reaches : time.Reaches nanoseconds reached)
    (forward : 0 ≤ nanoseconds) (ordinary : closing.isLeap = false) :
    reached < closing ↔ nanoseconds < (closing.since time).nanoseconds := by
  have closes := isLeap_eq_false_iff.mp ordinary
  have bound := reached.nano_lt
  rw [lt_iff, since_of_ordinary closes]
  cases reaches with
  | ordinary before after position =>
    rw [if_neg (by omega)]
    unfold TimeOfDay.position nanosPerSecond at *
    omega
  | within same nano leap before =>
    unfold TimeOfDay.position nanosPerSecond at *
    split <;> omega
  | back before after below position => omega
  | past before after beyond position =>
    unfold TimeOfDay.position nanosPerSecond at *
    split <;> omega

/-- Between ordinary times, a length that is less than the one up to closing leads to a time of the
day. -/
theorem exists_add?_of_lt_since (ordinary : time.isLeap = false) (closes : closing.isLeap = false)
    (forward : 0 ≤ length.nanoseconds)
    (less : length.nanoseconds < (closing.since time).nanoseconds) :
    ∃ reached, time.add? length = some reached := by
  have opens := isLeap_eq_false_iff.mp ordinary
  have bound := position_lt (isLeap_eq_false_iff.mp closes)
  rw [since_of_ordinary (isLeap_eq_false_iff.mp closes), if_neg (by omega)] at less
  unfold add?
  rw [dif_neg (by omega)]
  exact exists_ofPosition? (by omega) (by omega)

/-! ## Lengths that lead to before closing -/

/-- A time is later by a positive length. -/
theorem since_pos (before : time < closing) : 0 < (closing.since time).nanoseconds := by
  have bound := time.nano_lt
  rw [lt_iff] at before
  unfold since position nanosPerSecond at *
  simp only [isLeap_iff]
  unfold nanosPerSecond
  split
  · dsimp only
    omega
  · split
    · omega
    · dsimp only
      omega

/-- The length up to closing, less the part of it within a leap second that is entered on the way: no
length leads into a leap second from outside. -/
def reachableLength (time closing : TimeOfDay) : Int :=
  let length := (closing.since time).nanoseconds
  if closing.isLeap ∧ ¬(time.isLeap ∧ time.second = closing.second) then
    length - ((closing.nano : Int) - nanosPerSecond)
  else length

/-- A leap second counts in full where it lies before closing, and not at all where closing lies in
it. -/
theorem reachableLength_eq (before : time < closing) : time.reachableLength closing =
    (closing.position : Int) - time.position +
      (if time.second < closing.second ∧ nanosPerSecond ≤ time.nano then (nanosPerSecond : Int)
        else 0) -
      (if nanosPerSecond ≤ closing.nano ∧
          ¬(nanosPerSecond ≤ time.nano ∧ time.second = closing.second)
        then (closing.nano : Int) - nanosPerSecond else 0) := by
  rw [lt_iff] at before
  have notAfter : ¬(closing.second < time.second ∧ closing.isLeap = true) := by omega
  unfold reachableLength since
  simp only [isLeap_iff] at notAfter ⊢
  rw [if_neg notAfter]
  by_cases leap : time.second < closing.second ∧ nanosPerSecond ≤ time.nano
  · rw [if_pos leap, if_pos leap]
    split <;> simp
  · rw [if_neg leap, if_neg leap]
    split <;> simp

/-- All lengths up to closing are reachable if closing is no later than the start of a leap second, or
if it lies in the leap second of the time. -/
theorem reachableLength_of_le (entered : closing.nano ≤ nanosPerSecond ∨
    time.isLeap = true ∧ time.second = closing.second) :
    time.reachableLength closing = (closing.since time).nanoseconds := by
  unfold reachableLength
  dsimp only
  split
  · rename_i within
    have leap := isLeap_iff.mp within.1
    have start := entered.resolve_right within.2
    omega
  · rfl

theorem Reaches.lt_reachableLength {nanoseconds : Int} (reaches : time.Reaches nanoseconds reached)
    (before : time < closing) (less : reached < closing) :
    nanoseconds < time.reachableLength closing := by
  have bound := reached.nano_lt
  have closes := closing.nano_lt
  rw [reachableLength_eq before]
  rw [lt_iff] at before less
  cases reaches <;> unfold TimeOfDay.position nanosPerSecond at * <;> split <;> split <;> omega

theorem exists_reaches_of_lt_reachableLength {nanoseconds : Int} (before : time < closing)
    (forward : 0 ≤ nanoseconds) (below : nanoseconds < time.reachableLength closing) :
    ∃ reached, time.Reaches nanoseconds reached ∧ reached < closing := by
  have bound := closing.nano_lt
  have day := closing.second_lt
  rw [reachableLength_eq before] at below
  rw [lt_iff] at before
  rcases Nat.lt_or_ge time.nano nanosPerSecond with ordinary | leap
  · have within : (time.position : Int) + nanoseconds < secondsPerDay * nanosPerSecond := by
      unfold TimeOfDay.position nanosPerSecond secondsPerDay at *
      split at below <;> split at below <;> omega
    obtain ⟨reached, found⟩ := exists_ofPosition? (by omega) within
    obtain ⟨after, position⟩ := ofPosition?_eq_some_iff.mp found
    refine ⟨reached, .ordinary ordinary after position, lt_iff.mpr ?_⟩
    unfold TimeOfDay.position nanosPerSecond at *
    split at below <;> split at below <;> omega
  · by_cases stays : (time.nano : Int) + nanoseconds < 2 * nanosPerSecond
    · -- The length leads on within the leap second of the time.
      let reached : TimeOfDay := ⟨time.second, (time.nano + nanoseconds).toNat, time.second_lt,
        by omega, fun _ => time.leap_at_end leap⟩
      have nano : (reached.nano : Int) = time.nano + nanoseconds := Int.toNat_of_nonneg (by omega)
      refine ⟨reached, .within rfl nano (by omega) leap, lt_iff.mpr ?_⟩
      have same : reached.second = time.second := rfl
      unfold TimeOfDay.position nanosPerSecond at *
      split at below <;> split at below <;> omega
    · have within : (time.position : Int) + nanoseconds - nanosPerSecond <
          secondsPerDay * nanosPerSecond := by
        unfold TimeOfDay.position nanosPerSecond secondsPerDay at *
        split at below <;> split at below <;> omega
      have inside : 0 ≤ (time.position : Int) + nanoseconds - nanosPerSecond := by
        unfold TimeOfDay.position nanosPerSecond at *
        omega
      obtain ⟨reached, found⟩ := exists_ofPosition? inside within
      obtain ⟨after, position⟩ := ofPosition?_eq_some_iff.mp found
      refine ⟨reached, .past leap after (by omega) position, lt_iff.mpr ?_⟩
      unfold TimeOfDay.position nanosPerSecond at *
      split at below <;> split at below <;> omega

end TimeOfDay

end ProcessFlow
