import ProcessFlow.Proofs.Calendar.TimeOfDay

/-! # Sums and differences in seconds and nanoseconds

A clock keeps seconds and nanoseconds apart. To add a length, it cuts the length toward zero into whole
seconds and the rest, adds each part for itself, and then brings the nanoseconds below a second by a
carry or a borrow and the seconds within a day by wrapping. Nothing has been wrapped exactly if the sum
is on the same day. A difference counts the seconds and the nanoseconds apart as well, and a leap
second between the two times as a second more.

Both are the arithmetic of positions, so the difference between a sum and its time is the length
added. From an ordinary time, a length leads to a time of the day exactly if the positions say so, and
the opposite length leads back.
-/

namespace ProcessFlow

/-! ## Parts of a length -/

namespace Duration

/-- The length of the other sign. -/
instance : Neg Duration := ⟨fun length => ⟨-length.nanoseconds⟩⟩

@[simp] theorem nanoseconds_neg (length : Duration) : (-length).nanoseconds = -length.nanoseconds :=
  rfl

/-- The whole seconds of a length, cut toward zero. -/
def seconds (length : Duration) : Int := length.nanoseconds.tdiv nanosPerSecond

/-- The nanoseconds of a length beyond its whole seconds, which have the sign of the length. -/
def subseconds (length : Duration) : Int := length.nanoseconds.tmod nanosPerSecond

theorem seconds_add_subseconds (length : Duration) :
    length.seconds * nanosPerSecond + length.subseconds = length.nanoseconds :=
  Int.tdiv_mul_add_tmod length.nanoseconds nanosPerSecond

theorem neg_lt_subseconds (length : Duration) : -(nanosPerSecond : Int) < length.subseconds :=
  Int.lt_tmod_of_pos length.nanoseconds (by decide)

theorem subseconds_lt (length : Duration) : length.subseconds < nanosPerSecond :=
  Int.tmod_lt_of_pos length.nanoseconds (by decide)

/-- Seconds and nanoseconds do not differ in sign. -/
theorem subseconds_sign (length : Duration) :
    (0 ≤ length.nanoseconds → 0 ≤ length.subseconds) ∧
      (length.nanoseconds ≤ 0 → length.subseconds ≤ 0) := by
  refine ⟨Int.tmod_nonneg _, fun back => ?_⟩
  have opposite := Int.tmod_nonneg (nanosPerSecond : Int) (show 0 ≤ -length.nanoseconds by omega)
  rw [Int.neg_tmod] at opposite
  exact Int.neg_nonneg.mp opposite

end Duration

/-! ## Parts of a time -/

/-- Seconds and nanoseconds that are counted apart. -/
structure ClockParts where
  second : Int
  nano : Int
deriving DecidableEq

namespace ClockParts

/-- The nanoseconds that the parts make together. -/
def total (parts : ClockParts) : Int := parts.second * nanosPerSecond + parts.nano

/-- Bring the nanoseconds below a second by one carry or one borrow. -/
def carry (parts : ClockParts) : ClockParts :=
  if parts.nano < 0 then ⟨parts.second - 1, parts.nano + nanosPerSecond⟩
  else if nanosPerSecond ≤ parts.nano then ⟨parts.second + 1, parts.nano - nanosPerSecond⟩
  else parts

/-- Bring the seconds within a day, and return the seconds of the whole days that this takes. -/
def wrap (parts : ClockParts) : ClockParts × Int :=
  let second := parts.second % secondsPerDay
  (⟨second, parts.nano⟩, parts.second - second)

theorem total_carry (parts : ClockParts) : parts.carry.total = parts.total := by
  unfold carry total nanosPerSecond
  split
  · dsimp only
    omega
  · split
    · dsimp only
      omega
    · rfl

theorem carry_bounds {parts : ClockParts} (low : -(nanosPerSecond : Int) ≤ parts.nano)
    (high : parts.nano < 2 * nanosPerSecond) :
    0 ≤ parts.carry.nano ∧ parts.carry.nano < nanosPerSecond := by
  unfold carry
  split
  · dsimp only
    omega
  · split
    · dsimp only
      omega
    · omega

end ClockParts

namespace TimeOfDay

variable {time reached : TimeOfDay} {length : Duration}

def parts (time : TimeOfDay) : ClockParts := ⟨time.second, time.nano⟩

theorem total_parts (time : TimeOfDay) : time.parts.total = time.position := by
  simp [parts, ClockParts.total, position]

/-- Wrapped parts are those of an ordinary time, and nothing has been wrapped exactly if the parts
together are a position of the day. -/
theorem exists_wrap {sum : ClockParts} (low : 0 ≤ sum.nano) (high : sum.nano < nanosPerSecond) :
    ∃ time : TimeOfDay, sum.wrap.1 = time.parts ∧
      ofPosition? sum.total = if sum.wrap.2 = 0 then some time else none := by
  have day : (0 : Int) < secondsPerDay := by decide
  have nonneg := Int.emod_nonneg sum.second (Int.ne_of_gt day)
  have less := Int.emod_lt_of_pos sum.second day
  let time : TimeOfDay := ⟨(sum.second % secondsPerDay).toNat, sum.nano.toNat, by omega, by omega,
    by omega⟩
  have second : (time.second : Int) = sum.second % secondsPerDay := Int.toNat_of_nonneg nonneg
  have nano : (time.nano : Int) = sum.nano := Int.toNat_of_nonneg low
  refine ⟨time, by rw [parts, second, nano, ClockParts.wrap], ?_⟩
  unfold ClockParts.wrap
  dsimp only
  split
  · rename_i unwrapped
    rw [ofPosition?_eq_some_iff]
    unfold position ClockParts.total nanosPerSecond at *
    omega
  · rename_i wrapped
    unfold ofPosition?
    rw [dif_neg]
    rintro ⟨inside, within⟩
    unfold ClockParts.total nanosPerSecond secondsPerDay at *
    omega

/-! ## Sums -/

/-- Where the clock begins to add a length to a time. A length that leads forward out of a leap second
is added to the second that the leap second ends, and one that leads back by whole seconds to the
second after it. Other lengths stay in the leap second or in the second before it. -/
def origin? (time : TimeOfDay) (length : Duration) : Option ClockParts :=
  if nanosPerSecond ≤ time.nano then
    if 0 < length.seconds ∨
        0 < length.subseconds ∧ 2 * nanosPerSecond - length.subseconds ≤ time.nano then
      some ⟨time.second, time.nano - nanosPerSecond⟩
    else if length.seconds < 0 then some ⟨time.second + 1, time.nano - nanosPerSecond⟩
    else none
  else some time.parts

/-- The parts of the sum of a time and a length, and the seconds of the whole days that it wraps. -/
def wrappingAdd (time : TimeOfDay) (length : Duration) : ClockParts × Int :=
  match time.origin? length with
  | some origin =>
    (ClockParts.carry ⟨origin.second + length.seconds, origin.nano + length.subseconds⟩).wrap
  | none => (⟨time.second, time.nano + length.subseconds⟩, 0)

/-- The clock adds nanoseconds of less than a second to less than a second. -/
theorem origin?_bounds {origin : ClockParts} (starts : time.origin? length = some origin) :
    0 ≤ origin.nano ∧ origin.nano < nanosPerSecond := by
  have bound := time.nano_lt
  unfold origin? at starts
  split at starts
  · split at starts
    · cases starts
      dsimp only
      omega
    · split at starts <;> cases starts
      dsimp only
      omega
  · cases starts
    simp only [parts]
    omega

/-- A sum that the clock carries and wraps is at the position that the origin and the length say. -/
theorem add?_of_origin {origin : ClockParts} (starts : time.origin? length = some origin) :
    time.add? length = ofPosition? (origin.total + length.nanoseconds) := by
  have whole := length.seconds_add_subseconds
  have low := length.neg_lt_subseconds
  have high := length.subseconds_lt
  obtain ⟨forward, back⟩ := length.subseconds_sign
  have bound := time.nano_lt
  unfold origin? at starts
  unfold add?
  split at starts
  · rename_i leap
    rw [dif_pos leap]
    dsimp only
    split at starts
    · rename_i leaves
      cases starts
      have beyond : 2 * nanosPerSecond ≤ (time.nano : Int) + length.nanoseconds := by
        unfold nanosPerSecond at *
        omega
      have same : (time.position : Int) + length.nanoseconds - nanosPerSecond =
          ClockParts.total ⟨time.second, time.nano - nanosPerSecond⟩ + length.nanoseconds := by
        unfold position ClockParts.total nanosPerSecond
        dsimp only
        omega
      rw [withinLeap?_eq_none_iff.mpr (.inr beyond), Option.none_or, if_neg (by omega), same]
    · split at starts <;> cases starts
      rename_i backward
      have below : (time.nano : Int) + length.nanoseconds < nanosPerSecond := by
        unfold nanosPerSecond at *
        omega
      have same : (time.position : Int) + length.nanoseconds =
          ClockParts.total ⟨time.second + 1, time.nano - nanosPerSecond⟩ + length.nanoseconds := by
        unfold position ClockParts.total nanosPerSecond
        dsimp only
        omega
      rw [withinLeap?_eq_none_iff.mpr (.inl below), Option.none_or, if_pos below, same]
  · rename_i ordinary
    cases starts
    rw [dif_neg ordinary, total_parts]

/-- A sum that the clock does not carry stays in the leap second or in the second before it. -/
theorem exists_add?_of_origin_none (stays : time.origin? length = none) :
    ∃ reached, time.add? length = some reached ∧
      reached.parts = ⟨time.second, time.nano + length.subseconds⟩ := by
  have whole := length.seconds_add_subseconds
  have low := length.neg_lt_subseconds
  have bound := time.nano_lt
  unfold origin? at stays
  split at stays
  · rename_i leap
    split at stays
    · cases stays
    · split at stays
      · cases stays
      · have still : length.seconds = 0 := by omega
        have short : length.nanoseconds = length.subseconds := by
          rw [← whole, still, Int.zero_mul, Int.zero_add]
        let reached : TimeOfDay := ⟨time.second, (time.nano + length.subseconds).toNat,
          time.second_lt, by omega, fun _ => time.leap_at_end leap⟩
        have nano : (reached.nano : Int) = time.nano + length.subseconds :=
          Int.toNat_of_nonneg (by omega)
        refine ⟨reached, add?_eq_some_iff.mpr ?_, by rw [parts, nano]⟩
        rw [short]
        rcases Nat.lt_or_ge reached.nano nanosPerSecond with before | within
        · refine .back leap before (by omega) ?_
          have same : reached.second = time.second := rfl
          unfold position
          rw [same]
          omega
        · exact .within rfl nano within leap
  · cases stays

/-- The clock's sum is that of positions: it has the parts of a time, and there is a sum on the same
day exactly if nothing has been wrapped. -/
theorem add?_eq_wrappingAdd (time : TimeOfDay) (length : Duration) :
    ∃ sum : TimeOfDay, (time.wrappingAdd length).1 = sum.parts ∧
      time.add? length = if (time.wrappingAdd length).2 = 0 then some sum else none := by
  unfold wrappingAdd
  cases starts : time.origin? length with
  | some origin =>
    dsimp only
    have origin_bounds := origin?_bounds starts
    have low := length.neg_lt_subseconds
    have high := length.subseconds_lt
    obtain ⟨nonneg, less⟩ := @ClockParts.carry_bounds
      ⟨origin.second + length.seconds, origin.nano + length.subseconds⟩
      (by dsimp only; omega) (by dsimp only; omega)
    obtain ⟨sum, sum_parts, sum_position⟩ := exists_wrap nonneg less
    refine ⟨sum, sum_parts, ?_⟩
    rw [add?_of_origin starts, ← sum_position, ClockParts.total_carry]
    congr 1
    unfold ClockParts.total
    dsimp only
    rw [← length.seconds_add_subseconds, Int.add_mul]
    omega
  | none =>
    obtain ⟨reached, added, reached_parts⟩ := exists_add?_of_origin_none starts
    exact ⟨reached, reached_parts.symm, by rw [added, if_pos rfl]⟩

/-! ## Differences -/

/-- The parts of the length from an earlier time to this one. The nanoseconds are brought within a
second, whichever sign the length has. -/
def partsSince (time earlier : TimeOfDay) : ClockParts :=
  let clock := (time.second : Int) - earlier.second
  let second := if earlier.second < time.second ∧ nanosPerSecond ≤ earlier.nano then clock + 1
    else if time.second < earlier.second ∧ nanosPerSecond ≤ time.nano then clock - 1
    else clock
  let nano := (time.nano : Int) - earlier.nano
  ⟨second + nano / nanosPerSecond, nano % nanosPerSecond⟩

theorem nanoseconds_since (time earlier : TimeOfDay) :
    (time.since earlier).nanoseconds = (time.partsSince earlier).total := by
  unfold since partsSince position ClockParts.total nanosPerSecond
  simp only [isLeap_iff]
  unfold nanosPerSecond
  split
  · dsimp only
    omega
  · split <;> dsimp only <;> omega

/-- The length from a time to where a length leads is that length, also within, back from and out of a
leap second. -/
theorem Reaches.nanoseconds_since {nanoseconds : Int} (reaches : time.Reaches nanoseconds reached) :
    (reached.since time).nanoseconds = nanoseconds := by
  unfold since
  simp only [isLeap_iff]
  cases reaches with
  | ordinary before after position =>
    rw [if_neg (by omega), if_neg (by omega)]
    dsimp only
    omega
  | within same nano leap before =>
    rw [if_neg (by omega), if_neg (by omega)]
    unfold position
    rw [same]
    dsimp only
    omega
  | back before after below position =>
    have notAfter : ¬time.second < reached.second := by
      unfold TimeOfDay.position nanosPerSecond at *
      omega
    rw [if_neg (by omega), if_neg (by omega)]
    dsimp only
    omega
  | past before after beyond position =>
    have later : time.second < reached.second := by
      unfold TimeOfDay.position nanosPerSecond at *
      omega
    rw [if_pos ⟨later, before⟩]
    dsimp only
    omega

theorem since_of_add? (added : time.add? length = some reached) : reached.since time = length :=
  congrArg Duration.mk (add?_eq_some_iff.mp added).nanoseconds_since

/-- An ordinary time has sums with the lengths that lead to positions of the day, and no others. -/
theorem exists_add?_iff (ordinary : time.isLeap = false) :
    (∃ reached, time.add? length = some reached) ↔
      0 ≤ (time.position : Int) + length.nanoseconds ∧
        (time.position : Int) + length.nanoseconds < secondsPerDay * nanosPerSecond := by
  have before := isLeap_eq_false_iff.mp ordinary
  unfold add?
  rw [dif_neg (by omega)]
  constructor
  · rintro ⟨reached, added⟩
    obtain ⟨after, position⟩ := ofPosition?_eq_some_iff.mp added
    have within := position_lt after
    omega
  · rintro ⟨inside, within⟩
    exact exists_ofPosition? inside within

/-- From a sum, the opposite length leads back to the ordinary time that it was made of. -/
theorem add?_neg_of_add? (ordinary : time.isLeap = false) (added : time.add? length = some reached) :
    reached.add? (-length) = some time := by
  have before := isLeap_eq_false_iff.mp ordinary
  rw [add?_eq_some_iff] at added ⊢
  rw [Duration.nanoseconds_neg]
  cases added with
  | ordinary _ after position => exact .ordinary after before (by omega)
  | within _ _ _ leap | back leap | past leap => omega

/-- The sum that the clock makes of seconds and nanoseconds is a sum if it has wrapped no day, and
there is none otherwise; and the difference that it makes of them is the difference. What a sum is later
than its time is exactly the length added, leap seconds included. An ordinary time has a sum exactly if
the length leads to a position of the day, and the opposite length then leads back. -/
theorem add?_exact (time : TimeOfDay) (length : Duration) :
    (∃ sum : TimeOfDay, (time.wrappingAdd length).1 = sum.parts ∧
      time.add? length = if (time.wrappingAdd length).2 = 0 then some sum else none) ∧
    (∀ earlier, (time.since earlier).nanoseconds = (time.partsSince earlier).total) ∧
    (∀ reached, time.add? length = some reached → reached.since time = length) ∧
    (time.isLeap = false →
      ((∃ reached, time.add? length = some reached) ↔
        0 ≤ (time.position : Int) + length.nanoseconds ∧
          (time.position : Int) + length.nanoseconds < secondsPerDay * nanosPerSecond) ∧
      ∀ reached, time.add? length = some reached → reached.add? (-length) = some time) := by
  refine ⟨add?_eq_wrappingAdd time length, nanoseconds_since time, fun _ => since_of_add?, ?_⟩
  intro ordinary
  exact ⟨exists_add?_iff ordinary, fun _ => add?_neg_of_add? ordinary⟩

def leapMoment : TimeOfDay := ⟨86339, 1600000000, by decide, by decide, by decide⟩

def quarterPast : TimeOfDay := ⟨900, 0, by decide, midnight.nano_lt, by decide⟩

/-- A length leads back over the beginning of a leap second and counts it, and from an ordinary time the
length back to midnight, but not a nanosecond more, is on the day. -/
theorem add?_exact_leapMoment :
    leapMoment.add? ⟨-1750000000⟩ = some ⟨86338, 850000000, by decide, by decide, by decide⟩ ∧
    (TimeOfDay.mk 86338 850000000 (by decide) (by decide) (by decide)).since leapMoment =
      ⟨-1750000000⟩ ∧
    quarterPast.isLeap = false ∧ quarterPast.add? ⟨-900000000000⟩ = some midnight ∧
    midnight.add? ⟨900000000000⟩ = some quarterPast ∧
    ¬∃ reached, quarterPast.add? ⟨-900000000001⟩ = some reached := by
  have back : leapMoment.add? ⟨-1750000000⟩ =
      some ⟨86338, 850000000, by decide, by decide, by decide⟩ := by decide
  have ordinary : quarterPast.isLeap = false := by decide
  have toMidnight : quarterPast.add? ⟨-900000000000⟩ = some midnight := by decide
  obtain ⟨_, _, later, _⟩ := add?_exact leapMoment ⟨-1750000000⟩
  obtain ⟨_, _, _, opposite⟩ := add?_exact quarterPast ⟨-900000000000⟩
  obtain ⟨_, _, _, onDay⟩ := add?_exact quarterPast ⟨-900000000001⟩
  refine ⟨back, later _ back, ordinary, toMidnight, (opposite ordinary).2 _ toMidnight, ?_⟩
  rw [(onDay ordinary).1]
  decide

end TimeOfDay

end ProcessFlow
