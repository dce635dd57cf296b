import Mathlib
import ProcessFlow.Proofs.Calendar.TimeOfDay
import ProcessFlow.Proofs.Text.Blank
import ProcessFlow.Proofs.Text.Digits
import ProcessFlow.Text.Front

/-! # The text of a time of day

A time is read by the first of three patterns that its text fits, and it is written by one of them, with
a fraction unless it is a whole second. The texts that are read are those of the numbers of a clock: each
has one or two digits and may have blanks in front, the seconds and their fraction may be missing, and
second 60 is the leap second after second 59. What is written is such a text, so it reads back as the
time that it was written for.
-/

namespace ProcessFlow

/-! ## Patterns -/

/-- A part of a pattern for the text of a time. -/
inductive TimePart where
  | hour
  | minute
  | second
  | colon
  /-- The fraction of a second with its point, if there is one. -/
  | fraction
deriving DecidableEq

/-- The numbers of a clock. What has not been read is zero. -/
structure ClockReading where
  hour : Nat := 0
  minute : Nat := 0
  second : Nat := 0
  fraction : Nat := 0
deriving DecidableEq

namespace TimePart

def toMinute : List TimePart := [.hour, .colon, .minute]

def toSecond : List TimePart := toMinute ++ [.colon, .second]

def toFraction : List TimePart := toSecond ++ [.fraction]

/-- The patterns of a time in the order in which they are tried. -/
def patterns : List (List TimePart) := [toFraction, toSecond, toMinute]

end TimePart

namespace TimeOfDay

variable {time : TimeOfDay} {text rest : List Char} {value hour minute second fraction : Nat}

/-- Read a part off the front of a text. -/
def readPart? (reading : ClockReading) (text : List Char) :
    TimePart → Option (ClockReading × List Char)
  | .hour => (field? text).map fun (hour, rest) => ({ reading with hour }, rest)
  | .minute => (field? text).map fun (minute, rest) => ({ reading with minute }, rest)
  | .second => (field? text).map fun (second, rest) => ({ reading with second }, rest)
  | .colon => (dropWord? [':'] text).map fun rest => (reading, rest)
  | .fraction =>
    match text with
    | '.' :: rest => (someDigits? rest).map fun (digits, rest) =>
        ({ reading with fraction := decimalValue ((digits ++ List.replicate 9 '0').take 9) }, rest)
    | text => some (reading, text)

/-- Read a whole text by the parts of a pattern. -/
def readParts? (reading : ClockReading) (text : List Char) : List TimePart → Option TimeOfDay
  | [] =>
    if text.isEmpty then ofFields? reading.hour reading.minute reading.second reading.fraction
    else none
  | part :: parts => (readPart? reading text part).bind fun (reading, rest) =>
      readParts? reading rest parts

/-- The text of a part. A leap second is written as second 60. -/
def writePart (time : TimeOfDay) : TimePart → List Char
  | .hour => fixedDigits 2 (time.second / 3600)
  | .minute => fixedDigits 2 (time.second / 60 % 60)
  | .second => fixedDigits 2 (time.second % 60 + time.nano / nanosPerSecond)
  | .colon => [':']
  | .fraction => fractionText (time.nano % nanosPerSecond)

def pattern (time : TimeOfDay) : List TimePart :=
  if time.nano = 0 then TimePart.toSecond else TimePart.toFraction

/-- The second that a time shows and the fraction after it. -/
theorem shown_second (time : TimeOfDay) :
    (if time.isLeap then 60 else time.second % 60) = time.second % 60 + time.nano / nanosPerSecond ∧
      (if time.isLeap then time.nano - nanosPerSecond else time.nano) = time.nano % nanosPerSecond := by
  have bound := time.nano_lt
  have ends := time.leap_at_end
  simp only [isLeap_iff]
  unfold nanosPerSecond at *
  split <;> omega

/-- A time is written by its pattern. -/
theorem chars_eq_flatMap (time : TimeOfDay) : time.chars = time.pattern.flatMap time.writePart := by
  obtain ⟨second, fraction⟩ := shown_second time
  rw [chars]
  simp only [second, fraction]
  unfold pattern
  split
  · rename_i whole
    simp [TimePart.toSecond, TimePart.toMinute, writePart, whole, fractionText]
  · simp [TimePart.toFraction, TimePart.toSecond, TimePart.toMinute, writePart]

/-! ## Reading by patterns -/

theorem colonField?_eq (text : List Char) :
    colonField? text = (dropWord? [':'] text).bind field? := by
  unfold colonField?
  split
  · rfl
  · rename_i noColon
    cases text with
    | nil => rfl
    | cons head rest =>
      have different : ':' ≠ head := fun same => noColon rest (congrArg (· :: rest) same.symm)
      rw [dropWord?, if_neg different]
      rfl

section

variable (reading : ClockReading) (text : List Char) (parts : List TimePart)

theorem readParts?_hour : readParts? reading text (.hour :: parts) =
    (field? text).bind fun (hour, rest) => readParts? { reading with hour } rest parts := by
  rw [readParts?, readPart?, Option.bind_map]
  rfl

theorem readParts?_minute : readParts? reading text (.colon :: .minute :: parts) =
    (colonField? text).bind fun (minute, rest) => readParts? { reading with minute } rest parts := by
  simp only [readParts?, readPart?, Option.bind_map, colonField?_eq, Option.bind_assoc]
  rfl

theorem readParts?_second : readParts? reading text (.colon :: .second :: parts) =
    (colonField? text).bind fun (second, rest) => readParts? { reading with second } rest parts := by
  simp only [readParts?, readPart?, Option.bind_map, colonField?_eq, Option.bind_assoc]
  rfl

theorem readParts?_fraction (noFraction : reading.fraction = 0) :
    readParts? reading text [.fraction] = (fraction? text).bind fun fraction =>
      ofFields? reading.hour reading.minute reading.second fraction := by
  unfold fraction?
  split
  · simp [readParts?, readPart?, noFraction]
  · rename_i rest
    simp only [readParts?, readPart?, someDigits?]
    generalize spanDigits rest = cut
    obtain ⟨digits, after⟩ := cut
    cases digits <;> cases after <;> rfl
  · rename_i present noPoint
    cases text with
    | nil => exact absurd rfl present
    | cons head rest => simp [readParts?, readPart?]

/-- A text without a fraction is read no differently by the pattern with one. -/
theorem readParts?_fraction_or : (readParts? reading text [.fraction]).or (readParts? reading text []) =
    readParts? reading text [.fraction] := by
  cases text with
  | nil => simp [readParts?, readPart?]
  | cons head rest =>
    have unread : readParts? reading (head :: rest) [] = none := rfl
    rw [unread, Option.or_none]

end

theorem findSome?_patterns (read? : List TimePart → Option TimeOfDay) :
    TimePart.patterns.findSome? read? =
      ((read? TimePart.toFraction).or (read? TimePart.toSecond)).or (read? TimePart.toMinute) := by
  simp only [TimePart.patterns, List.findSome?_cons, List.findSome?_nil]
  cases read? TimePart.toFraction <;> cases read? TimePart.toSecond <;>
    cases read? TimePart.toMinute <;> rfl

/-- A time is read by the first pattern that its text fits. -/
theorem ofChars?_eq_findSome? (text : List Char) :
    ofChars? text = TimePart.patterns.findSome? (readParts? {} text) := by
  rw [findSome?_patterns]
  simp only [TimePart.toFraction, TimePart.toSecond, TimePart.toMinute, List.cons_append,
    List.nil_append, readParts?_hour, readParts?_minute, readParts?_second, ofChars?, bind]
  cases field? text with
  | none => rfl
  | some read =>
    obtain ⟨hour, text⟩ := read
    simp only [Option.bind_some]
    cases colonField? text with
    | none => rfl
    | some read =>
      obtain ⟨minute, text⟩ := read
      simp only [Option.bind_some]
      cases text with
      | nil => rfl
      | cons head rest =>
        rw [if_neg (by simp)]
        cases colonField? (head :: rest) with
        | none => rfl
        | some read =>
          obtain ⟨second, text⟩ := read
          simp only [Option.bind_some, readParts?_fraction_or]
          rw [readParts?_fraction _ _ rfl]
          exact (Option.or_none ..).symm

/-! ## Spellings -/

/-- A number of a clock is spelled by one or two digits, with any blanks in front. -/
def SpellsNumber (text : List Char) (value : Nat) : Prop :=
  ∃ blanks digits, text = blanks ++ digits ∧ Blank blanks ∧
    AllDigits digits ∧ digits ≠ [] ∧ digits.length ≤ 2 ∧ decimalValue digits = value

/-- The numbers of a clock are spelled with colons between them, and a fraction with a point before it.
What is missing is zero, and a fraction is cut off to nanoseconds. -/
inductive SpellsClock : List Char → ClockReading → Prop where
  | minutes {hourText minuteText : List Char} {hour minute : Nat} (hours : SpellsNumber hourText hour)
    (minutes : SpellsNumber minuteText minute) :
    SpellsClock (hourText ++ ':' :: minuteText) { hour, minute }
  | seconds {hourText minuteText secondText : List Char} {hour minute second : Nat}
    (hours : SpellsNumber hourText hour) (minutes : SpellsNumber minuteText minute)
    (seconds : SpellsNumber secondText second) :
    SpellsClock (hourText ++ ':' :: minuteText ++ ':' :: secondText) { hour, minute, second }
  | fraction {hourText minuteText secondText digits : List Char} {hour minute second : Nat}
    (hours : SpellsNumber hourText hour) (minutes : SpellsNumber minuteText minute)
    (seconds : SpellsNumber secondText second) (allDigits : AllDigits digits) (present : digits ≠ []) :
    SpellsClock (hourText ++ ':' :: minuteText ++ ':' :: secondText ++ '.' :: digits)
      { hour, minute, second,
        fraction := decimalValue digits * nanosPerSecond / 10 ^ digits.length }

/-- A clock shows the numbers at a time. Second 60 is the leap second after second 59. -/
structure Shows (time : TimeOfDay) (reading : ClockReading) : Prop where
  hour : reading.hour = time.second / 3600
  minute : reading.minute = time.second / 60 % 60
  second : reading.second = time.second % 60 + time.nano / nanosPerSecond
  fraction : reading.fraction = time.nano % nanosPerSecond

theorem eq_of_second_of_nano {other : TimeOfDay} (second : time.second = other.second)
    (nano : time.nano = other.nano) : time = other := by
  cases time
  cases other
  cases second
  cases nano
  rfl

theorem ofFields?_eq_some_iff {reading : ClockReading} :
    ofFields? reading.hour reading.minute reading.second reading.fraction = some time ↔
      time.Shows reading := by
  have bound := time.nano_lt
  have day := time.second_lt
  have ends := time.leap_at_end
  constructor
  · intro made
    unfold ofFields? at made
    split at made
    · split at made <;> cases made <;> constructor <;> dsimp only <;> unfold nanosPerSecond at * <;> omega
    · cases made
  · rintro ⟨hour, minute, second, fraction⟩
    have fits : reading.hour < 24 ∧ reading.minute < 60 ∧ reading.second ≤ 60 ∧
        reading.fraction < nanosPerSecond := by
      unfold nanosPerSecond secondsPerDay at *
      omega
    unfold ofFields?
    rw [dif_pos fits]
    unfold nanosPerSecond at bound ends second fraction
    split
    · refine congrArg some (eq_of_second_of_nano ?_ ?_) <;> dsimp only [nanosPerSecond] <;> omega
    · refine congrArg some (eq_of_second_of_nano ?_ ?_) <;> dsimp only <;> omega

/-! ## Reading is spelling -/

theorem SpellsNumber.ends_in_digit (spelled : SpellsNumber text value) :
    ∃ front last, text = front ++ [last] ∧ last.isDigit = true := by
  obtain ⟨blanks, digits, rfl, _, allDigits, present, _⟩ := spelled
  refine ⟨blanks ++ digits.dropLast, digits.getLast present, ?_, allDigits _ (List.getLast_mem present)⟩
  rw [List.append_assoc, List.dropLast_concat_getLast]

/-- A spelled number before something else is read, and nothing of what follows. -/
theorem field?_append (spelled : SpellsNumber text value) (ends : NoDigitNext rest) :
    field? (text ++ rest) = some (value, rest) := by
  obtain ⟨blanks, digits, rfl, blank, allDigits, present, few, rfl⟩ := spelled
  obtain ⟨first, others, shape⟩ := List.exists_cons_of_ne_nil present
  have solid : isBlank first = false :=
    isBlank_of_isDigit (allDigits first (shape ▸ List.mem_cons_self ..))
  have front : skipBlank (digits ++ rest) = digits ++ rest := by
    rw [shape, List.cons_append, skipBlank_cons_of_not_blank solid]
  rw [field?, List.append_assoc, skipBlank_append blank, front,
    takeDigits_append_of_allDigits allDigits few ends]
  exact if_neg (by simpa using present)

/-- What is read as a number spells it. -/
theorem exists_of_field? (read : field? text = some (value, rest)) :
    ∃ spelled, text = spelled ++ rest ∧ SpellsNumber spelled value := by
  have whole := takeWhile_append_skipBlank text
  have parts := takeDigits_append 2 (skipBlank text)
  obtain ⟨allDigits, few⟩ := allDigits_takeDigits 2 (skipBlank text)
  unfold field? at read
  dsimp only at read
  split at read
  · cases read
  · rename_i present
    cases read
    refine ⟨text.takeWhile isBlank ++ (takeDigits 2 (skipBlank text)).1, ?_,
      _, _, rfl, blank_takeWhile text, allDigits, by simpa using present, few, rfl⟩
    rw [List.append_assoc, parts, whole]

theorem colonField?_append (spelled : SpellsNumber text value) (ends : NoDigitNext rest) :
    colonField? (':' :: (text ++ rest)) = some (value, rest) := field?_append spelled ends

theorem exists_of_colonField? (read : colonField? text = some (value, rest)) :
    ∃ spelled, text = ':' :: (spelled ++ rest) ∧ SpellsNumber spelled value := by
  rw [colonField?_eq, Option.bind_eq_some_iff] at read
  obtain ⟨after, dropped, read⟩ := read
  obtain ⟨spelled, rfl, isSpelled⟩ := exists_of_field? read
  exact ⟨spelled, dropWord?_eq_some_iff.mp dropped, isSpelled⟩

theorem fraction?_eq_some_iff : fraction? text = some value ↔
    text = [] ∧ value = 0 ∨ ∃ digits, text = '.' :: digits ∧ AllDigits digits ∧ digits ≠ [] ∧
      value = decimalValue digits * nanosPerSecond / 10 ^ digits.length := by
  constructor
  · intro read
    unfold fraction? at read
    split at read
    · cases read
      exact .inl ⟨rfl, rfl⟩
    · rename_i rest
      have whole := spanDigits_append rest
      have allDigits := allDigits_spanDigits rest
      dsimp only at read
      split at read
      · cases read
      · rename_i present
        cases read
        simp only [Bool.or_eq_true, List.isEmpty_iff, Bool.not_eq_true', List.isEmpty_eq_false_iff,
          not_or, not_not] at present
        obtain ⟨present, ended⟩ := present
        rw [ended, List.append_nil] at whole
        refine .inr ⟨rest, rfl, whole ▸ allDigits, whole ▸ present, ?_⟩
        rw [whole, decimalValue_take_zeros (whole ▸ allDigits)]
        rfl
    · cases read
  · rintro (⟨rfl, rfl⟩ | ⟨digits, rfl, allDigits, present, rfl⟩)
    · rfl
    · have cut := spanDigits_append_of_allDigits allDigits noDigitNext_nil
      rw [List.append_nil] at cut
      simp only [fraction?, cut, List.isEmpty_nil, Bool.not_true, Bool.or_false]
      rw [if_neg (by simpa using present), decimalValue_take_zeros allDigits]
      rfl

/-- The texts without blanks around them that are read are those that spell the numbers of a clock. -/
theorem ofChars?_eq_some_iff :
    ofChars? text = some time ↔ ∃ reading, SpellsClock text reading ∧ time.Shows reading := by
  have colonNext (rest : List Char) : NoDigitNext (':' :: rest) := by
    rintro _ ⟨⟩
    rfl
  constructor
  · intro read
    simp only [ofChars?, bind, Option.bind_eq_some_iff, Prod.exists] at read
    obtain ⟨hour, rest, hourRead, minute, after, minuteRead, read⟩ := read
    obtain ⟨hourText, rfl, hours⟩ := exists_of_field? hourRead
    obtain ⟨minuteText, rfl, minutes⟩ := exists_of_colonField? minuteRead
    split at read
    · rename_i ended
      rw [List.isEmpty_iff.mp ended, List.append_nil]
      exact ⟨{ hour, minute }, .minutes hours minutes, ofFields?_eq_some_iff.mp read⟩
    · simp only [Option.bind_eq_some_iff, Prod.exists] at read
      obtain ⟨second, final, secondRead, fraction, fractionRead, read⟩ := read
      obtain ⟨secondText, rfl, seconds⟩ := exists_of_colonField? secondRead
      rcases fraction?_eq_some_iff.mp fractionRead with
        ⟨rfl, rfl⟩ | ⟨digits, rfl, allDigits, present, rfl⟩
      · refine ⟨{ hour, minute, second }, ?_, ofFields?_eq_some_iff.mp read⟩
        simpa using SpellsClock.seconds hours minutes seconds
      · refine ⟨{ hour, minute, second, fraction := _ }, ?_, ofFields?_eq_some_iff.mp read⟩
        simpa using SpellsClock.fraction hours minutes seconds allDigits present
  · rintro ⟨reading, spelled, shows⟩
    have made := ofFields?_eq_some_iff.mpr shows
    cases spelled with
    | minutes hours minutes =>
      have minuteRead := colonField?_append minutes noDigitNext_nil
      rw [List.append_nil] at minuteRead
      simp only [ofChars?, bind, field?_append hours (colonNext _), Option.bind_some, minuteRead]
      exact made
    | seconds hours minutes seconds =>
      have secondRead := colonField?_append seconds noDigitNext_nil
      rw [List.append_nil] at secondRead
      simp only [ofChars?, bind, List.append_assoc, List.cons_append,
        field?_append hours (colonNext _), Option.bind_some,
        colonField?_append minutes (colonNext _), secondRead]
      exact made
    | @fraction hourText minuteText secondText digits _ _ _ hours minutes seconds allDigits present =>
      have pointNext : NoDigitNext ('.' :: digits) := by
        rintro _ ⟨⟩
        rfl
      have fractionRead := fraction?_eq_some_iff.mpr
        (.inr ⟨digits, rfl, allDigits, present, rfl⟩)
      simp only [ofChars?, bind, List.append_assoc, List.cons_append,
        field?_append hours (colonNext _), Option.bind_some,
        colonField?_append minutes (colonNext _), colonField?_append seconds pointNext, fractionRead]
      exact made

theorem SpellsClock.ends_in_digit {reading : ClockReading} (spelled : SpellsClock text reading) :
    ∃ front last, text = front ++ [last] ∧ last.isDigit = true := by
  cases spelled with
  | @minutes hourText _ _ _ _ minutes =>
    obtain ⟨front, last, rfl, isDigit⟩ := minutes.ends_in_digit
    exact ⟨hourText ++ ':' :: front, last, by simp, isDigit⟩
  | @seconds hourText minuteText _ _ _ _ _ _ seconds =>
    obtain ⟨front, last, rfl, isDigit⟩ := seconds.ends_in_digit
    exact ⟨hourText ++ ':' :: minuteText ++ ':' :: front, last, by simp, isDigit⟩
  | @fraction hourText minuteText secondText digits _ _ _ _ _ _ allDigits present =>
    refine ⟨hourText ++ ':' :: minuteText ++ ':' :: secondText ++ '.' :: digits.dropLast,
      digits.getLast present, ?_, allDigits _ (List.getLast_mem present)⟩
    simp [List.dropLast_concat_getLast present]

/-- Blanks in front of a text make no difference to the numbers of a clock in it. -/
theorem ofChars?_skipBlank (text : List Char) : ofChars? (skipBlank text) = ofChars? text := by
  simp only [ofChars?, field?, skipBlank_skipBlank]

/-- A text spells a time if it spells the numbers that a clock shows at the time, with any blanks around
them. -/
def Spells (text : String) (time : TimeOfDay) : Prop :=
  ∃ front clock back reading, text.toList = front ++ clock ++ back ∧ Blank front ∧ Blank back ∧
    SpellsClock clock reading ∧ time.Shows reading

theorem parse?_eq_ok_iff {text : String} : parse? text = .ok time ↔ Spells text time := by
  have read : parse? text = .ok time ↔ ofChars? (trimBlank text.toList) = some time := by
    unfold parse?
    dsimp only
    cases ofChars? (trimBlank text.toList) <;> simp
  rw [read]
  constructor
  · intro found
    obtain ⟨reading, spelled, shows⟩ := ofChars?_eq_some_iff.mp found
    obtain ⟨front, back, whole, blankFront, blankBack⟩ := (trims_trimBlank text.toList).around
    exact ⟨front, _, back, reading, whole, blankFront, blankBack, spelled, shows⟩
  · rintro ⟨front, clock, back, reading, whole, blankFront, blankBack, spelled, shows⟩
    obtain ⟨before, last, ends, isDigit⟩ := spelled.ends_in_digit
    have solid : ∀ character ∈ clock.getLast?, isBlank character = false := by
      intro character isLast
      rw [ends, List.getLast?_concat] at isLast
      cases isLast
      exact isBlank_of_isDigit isDigit
    rw [whole, trimBlank_append blankFront blankBack, trimBlank_of_solid_last solid, ofChars?_skipBlank]
    exact ofChars?_eq_some_iff.mpr ⟨reading, spelled, shows⟩

/-! ## Writing is spelling -/

theorem spellsNumber_fixedDigits (small : value < 100) : SpellsNumber (fixedDigits 2 value) value := by
  refine ⟨[], fixedDigits 2 value, rfl, blank_nil, allDigits_fixedDigits 2 value, ?_, ?_, ?_⟩
  · exact List.ne_nil_of_length_pos (by rw [length_fixedDigits]; decide)
  · rw [length_fixedDigits]
  · rw [decimalValue_fixedDigits]
    exact Nat.mod_eq_of_lt small

/-- The digits of a fraction that is written are exact. -/
theorem exists_fractionText (present : fraction ≠ 0) (small : fraction < nanosPerSecond) :
    ∃ digits, fractionText fraction = '.' :: digits ∧ AllDigits digits ∧ digits ≠ [] ∧
      decimalValue digits * nanosPerSecond / 10 ^ digits.length = fraction := by
  have written {width scaled : Nat} (some : 0 < width)
      (exact : scaled % Nat.pow 10 width * nanosPerSecond / 10 ^ width = fraction) :
      AllDigits (fixedDigits width scaled) ∧ fixedDigits width scaled ≠ [] ∧
        decimalValue (fixedDigits width scaled) * nanosPerSecond /
          10 ^ (fixedDigits width scaled).length = fraction := by
    refine ⟨allDigits_fixedDigits width scaled, List.ne_nil_of_length_pos ?_, ?_⟩
    · rwa [length_fixedDigits]
    · rwa [decimalValue_fixedDigits, length_fixedDigits]
  unfold fractionText
  rw [if_neg present]
  unfold nanosPerSecond at *
  split
  · exact ⟨_, rfl, written (by decide) (by simp only [Nat.pow_eq]; omega)⟩
  · split
    · exact ⟨_, rfl, written (by decide) (by simp only [Nat.pow_eq]; omega)⟩
    · exact ⟨_, rfl, written (by decide) (by simp only [Nat.pow_eq]; omega)⟩

/-- A time is written in numbers that a clock shows at it. -/
theorem spells_text (time : TimeOfDay) : Spells time.text time := by
  have bound := time.nano_lt
  have day := time.second_lt
  have ends := time.leap_at_end
  have hours : SpellsNumber (fixedDigits 2 (time.second / 3600)) (time.second / 3600) :=
    spellsNumber_fixedDigits (by unfold secondsPerDay at day; omega)
  have minutes : SpellsNumber (fixedDigits 2 (time.second / 60 % 60)) (time.second / 60 % 60) :=
    spellsNumber_fixedDigits (by omega)
  have seconds : SpellsNumber (fixedDigits 2 (time.second % 60 + time.nano / nanosPerSecond))
      (time.second % 60 + time.nano / nanosPerSecond) :=
    spellsNumber_fixedDigits (by unfold nanosPerSecond at *; omega)
  obtain ⟨second, shownFraction⟩ := shown_second time
  refine ⟨[], time.chars, [], ⟨time.second / 3600, time.second / 60 % 60,
    time.second % 60 + time.nano / nanosPerSecond, time.nano % nanosPerSecond⟩, by simp [text], blank_nil,
    blank_nil, ?_, ⟨rfl, rfl, rfl, rfl⟩⟩
  rw [chars]
  simp only [second, shownFraction]
  by_cases whole : time.nano % nanosPerSecond = 0
  · rw [whole, fractionText, if_pos rfl, List.append_nil]
    exact .seconds hours minutes seconds
  · obtain ⟨digits, written, allDigits, present, exact⟩ :=
      exists_fractionText whole (Nat.mod_lt _ (by decide))
    have spelled := SpellsClock.fraction hours minutes seconds allDigits present
    rw [exact] at spelled
    rw [written]
    exact spelled

/-- A time is written by one of two patterns and read by the first of three that fits. The texts that are
read as a time are exactly those that spell it; its own text is one of them, so every time reads back
from its text, and to write and read again what has been read from any text changes nothing. -/
theorem text_exact (time : TimeOfDay) (text : String) :
    time.chars = time.pattern.flatMap time.writePart ∧
    (∀ trimmed, ofChars? trimmed = TimePart.patterns.findSome? (readParts? {} trimmed)) ∧
    (parse? text = .ok time ↔ Spells text time) ∧
    parse? time.text = .ok time ∧
    ((parse? text).bind fun read => parse? read.text) = parse? text := by
  have readsBack (time : TimeOfDay) : parse? time.text = .ok time :=
    parse?_eq_ok_iff.mpr (spells_text time)
  refine ⟨chars_eq_flatMap time, ofChars?_eq_findSome?, parse?_eq_ok_iff, readsBack time, ?_⟩
  cases parse? text with
  | error => rfl
  | ok read => rw [Except.bind, readsBack]

/-- Second 60 and a fraction of ten digits, with blanks around the text and before its numbers. -/
example : (ofChars? (trimBlank "\u2003 7: 5:60.0001000009 ".toList)).map chars =
    some "07:05:60.000100".toList := by decide +kernel

end TimeOfDay

end ProcessFlow
