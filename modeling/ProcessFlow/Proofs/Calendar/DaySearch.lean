import Mathlib.Data.Int.Interval
import Mathlib.Data.Set.Card
import Mathlib.Logic.Relation
import ProcessFlow.Proofs.Calendar.BusinessDay

/-! # The search for a business day

The search rolls forward to a business day and then counts the business days that it comes to, in
a counter of 32 bits. Wherever it stands, the counter is one less than the business days from the
start on that it has been to, and it has not passed the count asked for. So the search ends on the
business day with that many before it, or it stands on the last representable day and still has to
go on. It does the latter exactly if there are too few business days from the start on.
-/

namespace ProcessFlow

open Relation

variable {isBusinessDay : Day → Bool} {start day last : Day}

/-! ## Days counted as a set -/

theorem Day.span_ascending (first : Day) (length : Nat) : (first.span length).Pairwise (· < ·) := by
  induction length generalizing first with
  | zero => exact .nil
  | succ length ih =>
    cases step : first.next? with
    | none =>
      rw [span_succ_of_last step]
      exact List.pairwise_singleton ..
    | some next =>
      have number := next?_eq_some_iff.mp step
      rw [span_succ_of_next step]
      refine List.pairwise_cons.mpr ⟨fun later member => ?_, ih next⟩
      have after := le_iff.mp (mem_span.mp member).1
      rw [lt_iff]
      omega

/-- The business days of a span are the days of a set. -/
theorem countP_span (isBusinessDay : Day → Bool) (first : Day) (length : Nat) :
    (first.span length).countP isBusinessDay = {day | first ≤ day ∧
      day.number < first.number + length ∧ isBusinessDay day = true}.ncard := by
  have distinct : ((first.span length).filter isBusinessDay).Nodup :=
    ((first.span_ascending length).imp Std.ne_of_lt).filter _
  have same : {day | first ≤ day ∧ day.number < first.number + length ∧ isBusinessDay day = true} =
      (((first.span length).filter isBusinessDay).toFinset : Set Day) := by
    ext day
    simp only [Set.mem_ofPred_eq, List.coe_toFinset, List.mem_filter, Day.mem_span, and_assoc]
  rw [same, Set.ncard_coe_finset, List.toFinset_card_of_nodup distinct, List.countP_eq_length_filter]

theorem businessDaysBetween_eq_ncard (isBusinessDay : Day → Bool) (first last : Day) :
    businessDaysBetween isBusinessDay first last =
      {day | first ≤ day ∧ day < last ∧ isBusinessDay day = true}.ncard := by
  rw [businessDaysBetween, countP_span]
  congr 1
  ext day
  simp only [Set.mem_ofPred_eq, Day.le_iff, Day.lt_iff]
  apply and_congr_right
  intro after
  apply and_congr_left
  intro _
  omega

def businessDaysFrom (isBusinessDay : Day → Bool) (first : Day) : Set Day :=
  {day | first ≤ day ∧ isBusinessDay day = true}

theorem ncard_businessDaysFrom (isBusinessDay : Day → Bool) (first : Day) :
    (businessDaysFrom isBusinessDay first).ncard =
      (first.span (first.daysLeft + 1)).countP isBusinessDay := by
  rw [countP_span]
  congr 1
  ext day
  simp only [businessDaysFrom, Set.mem_ofPred_eq, Day.le_iff, Day.daysLeft]
  apply and_congr_right
  intro after
  apply (and_iff_right _).symm
  have bound := day.le_last
  omega

/-- There are finitely many representable days. -/
instance : Finite Day :=
  Finite.of_injective
    (fun day => (⟨day.number, day.first_le, day.le_last⟩ : Set.Icc firstDayNumber lastDayNumber))
    fun _ _ same => Day.ext (congrArg Subtype.val same)

/-- A count fails exactly if there are not more business days from the start on. -/
theorem addBusinessDays?_eq_none_iff {count : Nat} :
    addBusinessDays? isBusinessDay start count = none ↔
      (businessDaysFrom isBusinessDay start).ncard < count + 1 := by
  rw [← not_iff_not, ← Ne, Option.ne_none_iff_exists', Nat.not_lt]
  constructor
  · rintro ⟨last, reached⟩
    obtain ⟨business, before, between⟩ := addBusinessDays?_eq_some_iff.mp reached
    rw [businessDaysBetween_eq_ncard] at between
    have within : insert last {day | start ≤ day ∧ day < last ∧ isBusinessDay day = true} ⊆
        businessDaysFrom isBusinessDay start := by
      rintro day (rfl | ⟨after, _, isBusiness⟩)
      · exact ⟨before, business⟩
      · exact ⟨after, isBusiness⟩
    have fresh : last ∉ {day | start ≤ day ∧ day < last ∧ isBusinessDay day = true} :=
      fun member => Std.lt_irrefl member.2.1
    have size := Set.ncard_le_ncard within (Set.toFinite _)
    rw [Set.ncard_insert_of_notMem fresh (Set.toFinite _), between] at size
    exact size
  · intro enough
    rw [ncard_businessDaysFrom] at enough
    exact exists_addBusinessDays? enough

/-- A business day from the start on with as many business days before it as counted. -/
structure IsCounted (isBusinessDay : Day → Bool) (start : Day) (count : Nat) (last : Day) : Prop where
  after : start ≤ last
  business : isBusinessDay last = true
  passed : {day | start ≤ day ∧ day < last ∧ isBusinessDay day = true}.ncard = count

theorem isCounted_iff {count : Nat} : IsCounted isBusinessDay start count last ↔
    addBusinessDays? isBusinessDay start count = some last := by
  rw [addBusinessDays?_eq_some_iff, businessDaysBetween_eq_ncard]
  constructor
  · rintro ⟨after, business, passed⟩
    exact ⟨business, after, passed⟩
  · rintro ⟨business, after, passed⟩
    exact ⟨after, business, passed⟩

/-- No count is reached by the last representable day if there are not more business days up to it. -/
theorem addBusinessDays?_of_few {count : Nat} (ended : day.next? = none)
    (few : businessDaysBetween isBusinessDay start day + (if isBusinessDay day then 1 else 0) ≤ count) :
    addBusinessDays? isBusinessDay start count = none := by
  cases reached : addBusinessDays? isBusinessDay start count with
  | none => rfl
  | some last =>
    obtain ⟨business, before, between⟩ := addBusinessDays?_eq_some_iff.mp reached
    have bound : last ≤ day := Day.le_last_of_next?_eq_none ended last
    by_cases same : last = day
    · rw [← same, business, if_pos rfl] at few
      omega
    · have more := businessDaysBetween_lt business before (Std.lt_of_le_of_ne bound same)
      omega

/-! ## The search step by step -/

/-- Where a search stands: on its way to the first business day, or on a day after that with a counter
of the business days that it has come to since. -/
inductive DaySearch where
  | rolling (day : Day)
  | counting (day : Day) (counted : UInt32)

namespace DaySearch

/-- The counter, which is zero before the count begins. -/
def counted : DaySearch → UInt32
  | rolling _ => 0
  | counting _ counted => counted

/-- A step of a search for the business day that has `count` others before it. After the greatest
number of 32 bits the counter would go on at zero. -/
inductive Step (isBusinessDay : Day → Bool) (count : UInt32) : DaySearch → DaySearch → Prop
  | roll {day next : Day} (idle : isBusinessDay day = false) (onward : day.next? = some next) :
    Step isBusinessDay count (.rolling day) (.rolling next)
  | begin {day : Day} (business : isBusinessDay day = true) :
    Step isBusinessDay count (.rolling day) (.counting day 0)
  | pass {day next : Day} {counted : UInt32} (more : counted < count)
    (onward : day.next? = some next) :
    Step isBusinessDay count (.counting day counted)
      (.counting next (if isBusinessDay next then counted + 1 else counted))

/-- A search that has to go on from the last representable day. -/
inductive Stuck (isBusinessDay : Day → Bool) (count : UInt32) : DaySearch → Prop
  | rolling {day : Day} (idle : isBusinessDay day = false) (ended : day.next? = none) :
    Stuck isBusinessDay count (.rolling day)
  | counting {day : Day} {counted : UInt32} (more : counted < count) (ended : day.next? = none) :
    Stuck isBusinessDay count (.counting day counted)

/-- A search gets from one place to another. -/
abbrev Leads (isBusinessDay : Day → Bool) (count : UInt32) : DaySearch → DaySearch → Prop :=
  ReflTransGen (Step isBusinessDay count)

variable {count counted : UInt32} {state next : DaySearch}

/-- Below another number the counter does not overflow. -/
theorem toNat_succ_of_lt (more : counted < count) : (counted + 1).toNat = counted.toNat + 1 := by
  have less := UInt32.lt_iff_toNat_lt.mp more
  have bound := count.toNat_lt
  rw [UInt32.toNat_add, UInt32.toNat_one]
  omega

theorem succ_le_of_lt (more : counted < count) : counted + 1 ≤ count := by
  rw [UInt32.le_iff_toNat_le, toNat_succ_of_lt more]
  exact UInt32.lt_iff_toNat_lt.mp more

/-- Where a search from a start can stand: the counter is one less than the business days that it has
been to, and it has the count only on a business day. -/
inductive Stands (isBusinessDay : Day → Bool) (start : Day) (count : UInt32) : DaySearch → Prop
  | rolling {day : Day} (after : start ≤ day)
    (passed : businessDaysBetween isBusinessDay start day = 0) :
    Stands isBusinessDay start count (.rolling day)
  | counting {day : Day} {counted : UInt32} (after : start ≤ day) (within : counted ≤ count)
    (passed : businessDaysBetween isBusinessDay start day + (if isBusinessDay day then 1 else 0) =
      counted.toNat + 1)
    (unended : counted < count ∨ isBusinessDay day = true) :
    Stands isBusinessDay start count (.counting day counted)

theorem Stands.step (stands : Stands isBusinessDay start count state)
    (step : Step isBusinessDay count state next) : Stands isBusinessDay start count next := by
  cases step with
  | roll idle onward =>
    obtain ⟨after, passed⟩ := stands
    have further := businessDaysBetween_next isBusinessDay after onward
    rw [passed, idle] at further
    have later := Day.le_of_next? onward
    exact .rolling (Std.le_trans after later) further
  | begin business =>
    obtain ⟨after, passed⟩ := stands
    refine .counting after UInt32.zero_le ?_ (.inr business)
    rw [passed, if_pos business]
    rfl
  | @pass day next counted more onward =>
    obtain _ | ⟨after, _, passed, _⟩ := stands
    have further := businessDaysBetween_next isBusinessDay after onward
    have later := Day.le_of_next? onward
    rw [passed] at further
    by_cases business : isBusinessDay next = true
    · rw [if_pos business]
      refine .counting (Std.le_trans after later) (succ_le_of_lt more) ?_ (.inr business)
      rw [further, if_pos business, toNat_succ_of_lt more]
    · rw [if_neg business]
      refine .counting (Std.le_trans after later) (UInt32.le_of_lt more) ?_ (.inl more)
      rw [further, if_neg business, Nat.add_zero]

theorem stands_of_leads (leads : Leads isBusinessDay count (.rolling start) state) :
    Stands isBusinessDay start count state := by
  induction leads with
  | refl => exact .rolling (Std.le_refl start) (businessDaysBetween_self isBusinessDay start)
  | tail _ step ih => exact ih.step step

/-- The counter has not passed the count. -/
theorem Stands.counted_le (stands : Stands isBusinessDay start count state) :
    state.counted ≤ count := by
  cases stands with
  | rolling => exact UInt32.zero_le
  | counting _ within => exact within

/-- A step does not turn the counter back. -/
theorem Step.counted_le (step : Step isBusinessDay count state next) :
    state.counted ≤ next.counted := by
  cases step with
  | roll => exact UInt32.le_refl 0
  | begin => exact UInt32.le_refl 0
  | @pass day next counted more =>
    change counted ≤ if isBusinessDay next then counted + 1 else counted
    split
    · rw [UInt32.le_iff_toNat_le, toNat_succ_of_lt more]
      omega
    · exact UInt32.le_refl counted

/-- A search that has come to the count is on the day that the count ends on. -/
theorem Stands.reached (stands : Stands isBusinessDay start count (.counting last count)) :
    addBusinessDays? isBusinessDay start count.toNat = some last := by
  obtain _ | ⟨after, _, passed, unended⟩ := stands
  have business := unended.resolve_left (UInt32.lt_irrefl count)
  rw [if_pos business] at passed
  exact addBusinessDays?_eq_some_iff.mpr ⟨business, after, Nat.succ.inj passed⟩

/-- A search is stuck only if its count does not end. -/
theorem Stands.failed (stands : Stands isBusinessDay start count state)
    (stuck : Stuck isBusinessDay count state) :
    addBusinessDays? isBusinessDay start count.toNat = none := by
  cases stuck with
  | rolling idle ended =>
    obtain ⟨after, passed⟩ := stands
    apply addBusinessDays?_of_few ended
    rw [passed, idle]
    exact Nat.zero_le _
  | counting more ended =>
    obtain _ | ⟨after, _, passed, _⟩ := stands
    apply addBusinessDays?_of_few ended
    rw [passed]
    exact UInt32.lt_iff_toNat_lt.mp more

/-- A search comes to its count or gets stuck. -/
def Ends (isBusinessDay : Day → Bool) (count : UInt32) (state : DaySearch) : Prop :=
  (∃ last, Leads isBusinessDay count state (.counting last count)) ∨
    ∃ final, Leads isBusinessDay count state final ∧ Stuck isBusinessDay count final

theorem Ends.head (step : Step isBusinessDay count state next) (ends : Ends isBusinessDay count next) :
    Ends isBusinessDay count state := by
  rcases ends with ⟨last, leads⟩ | ⟨final, leads, stuck⟩
  · exact .inl ⟨last, .head step leads⟩
  · exact .inr ⟨final, .head step leads, stuck⟩

theorem ends_of_counting (day : Day) {counted : UInt32} (within : counted ≤ count) :
    Ends isBusinessDay count (.counting day counted) := by
  by_cases reached : counted = count
  · subst reached
    exact .inl ⟨day, .refl⟩
  · have more : counted < count := UInt32.lt_of_le_of_ne within reached
    cases onward : day.next? with
    | none => exact .inr ⟨_, .refl, .counting more onward⟩
    | some next =>
      have withinNext : (if isBusinessDay next then counted + 1 else counted) ≤ count := by
        split
        · exact succ_le_of_lt more
        · exact within
      exact (ends_of_counting next withinNext).head (.pass more onward)
termination_by day.daysLeft
decreasing_by exact Day.daysLeft_next onward

theorem ends_of_rolling (isBusinessDay : Day → Bool) (count : UInt32) (day : Day) :
    Ends isBusinessDay count (.rolling day) := by
  cases business : isBusinessDay day with
  | true =>
    exact (ends_of_counting day UInt32.zero_le).head (.begin business)
  | false =>
    cases onward : day.next? with
    | none => exact .inr ⟨_, .refl, .rolling business onward⟩
    | some next => exact (ends_of_rolling isBusinessDay count next).head (.roll business onward)
termination_by day.daysLeft
decreasing_by exact Day.daysLeft_next onward

/-- A search comes to its count on the day that the count ends on. -/
theorem leads_counting_iff : Leads isBusinessDay count (.rolling start) (.counting last count) ↔
    addBusinessDays? isBusinessDay start count.toNat = some last := by
  constructor
  · intro leads
    exact (stands_of_leads leads).reached
  · intro reached
    rcases ends_of_rolling isBusinessDay count start with ⟨other, leads⟩ | ⟨final, leads, stuck⟩
    · have same := (stands_of_leads leads).reached
      rw [reached, Option.some.injEq] at same
      exact same ▸ leads
    · have failed := (stands_of_leads leads).failed stuck
      rw [reached] at failed
      cases failed

/-- A search gets stuck exactly if its count does not end. -/
theorem exists_stuck_iff :
    (∃ final, Leads isBusinessDay count (.rolling start) final ∧ Stuck isBusinessDay count final) ↔
      addBusinessDays? isBusinessDay start count.toNat = none := by
  constructor
  · rintro ⟨final, leads, stuck⟩
    exact (stands_of_leads leads).failed stuck
  · intro failed
    apply (ends_of_rolling isBusinessDay count start).resolve_left
    rintro ⟨last, leads⟩
    have reached := (stands_of_leads leads).reached
    rw [failed] at reached
    cases reached

end DaySearch

open DaySearch

/-- A count ends on the one business day that has as many business days from the start on before it,
and it fails exactly if there are not more of them up to the last representable day. A search that
rolls forward and then counts in 32 bits comes to that day with the count, or has to go on from the
last representable day. Its counter is never greater than the count and never turns back. -/
theorem addBusinessDays?_exact (isBusinessDay : Day → Bool) (start : Day) (count : UInt32) :
    (∀ last, addBusinessDays? isBusinessDay start count.toNat = some last ↔
      IsCounted isBusinessDay start count.toNat last) ∧
    (∀ last other, IsCounted isBusinessDay start count.toNat last →
      IsCounted isBusinessDay start count.toNat other → last = other) ∧
    (addBusinessDays? isBusinessDay start count.toNat = none ↔
      {day | start ≤ day ∧ isBusinessDay day = true}.ncard < count.toNat + 1) ∧
    (∀ last, addBusinessDays? isBusinessDay start count.toNat = some last ↔
      Leads isBusinessDay count (.rolling start) (.counting last count)) ∧
    (addBusinessDays? isBusinessDay start count.toNat = none ↔
      ∃ final, Leads isBusinessDay count (.rolling start) final ∧ Stuck isBusinessDay count final) ∧
    ∀ state, Leads isBusinessDay count (.rolling start) state → state.counted ≤ count ∧
      ∀ next, Step isBusinessDay count state next → state.counted ≤ next.counted := by
  refine ⟨fun _ => isCounted_iff.symm, fun last other isLast isOther => ?_,
    addBusinessDays?_eq_none_iff, fun _ => leads_counting_iff.symm, exists_stuck_iff.symm,
    fun state leads => ⟨(stands_of_leads leads).counted_le, fun _ => Step.counted_le⟩⟩
  have reached := isCounted_iff.mp isLast
  rw [isCounted_iff.mp isOther, Option.some.injEq] at reached
  exact reached.symm

/-- Only the last two representable days are business days. -/
def lastTwoDays (day : Day) : Bool := lastDayNumber - 1 ≤ day.number

/-- The last representable day, and the one three days before it. -/
def finalDay : Day := ⟨lastDayNumber, by decide, by decide⟩
def threeDaysBefore : Day := ⟨lastDayNumber - 3, by decide, by decide⟩

/-- From three days before the end, a count of one ends on the last day, and a count of two fails. -/
theorem addBusinessDays?_exact_lastTwoDays :
    addBusinessDays? lastTwoDays threeDaysBefore 1 = some finalDay ∧
    IsCounted lastTwoDays threeDaysBefore 1 finalDay ∧
    Leads lastTwoDays 1 (.rolling threeDaysBefore) (.counting finalDay 1) ∧
    addBusinessDays? lastTwoDays threeDaysBefore 2 = none ∧
    {day | threeDaysBefore ≤ day ∧ lastTwoDays day = true}.ncard < 3 ∧
    ∃ final, Leads lastTwoDays 2 (.rolling threeDaysBefore) final ∧ Stuck lastTwoDays 2 final ∧
      final.counted ≤ 2 := by
  have reached : addBusinessDays? lastTwoDays threeDaysBefore 1 = some finalDay :=
    addBusinessDays?_eq_some_iff.mpr (by decide +kernel)
  have ended : finalDay.next? = none := Day.next?_eq_none_iff.mpr rfl
  have failed : addBusinessDays? lastTwoDays threeDaysBefore 2 = none :=
    addBusinessDays?_of_few ended (by decide +kernel)
  obtain ⟨counted, _, _, leads, _⟩ := addBusinessDays?_exact lastTwoDays threeDaysBefore 1
  obtain ⟨_, _, few, _, stuck, bounded⟩ := addBusinessDays?_exact lastTwoDays threeDaysBefore 2
  obtain ⟨final, toFinal, isStuck⟩ := stuck.mp failed
  exact ⟨reached, (counted finalDay).mp reached, (leads finalDay).mp reached, failed, few.mp failed,
    final, toFinal, isStuck, (bounded final toFinal).1⟩

end ProcessFlow
