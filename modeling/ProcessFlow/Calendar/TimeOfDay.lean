import ProcessFlow.Calendar.Duration
import ProcessFlow.Text.Blank

/-! # Times of day

A time of day is a second of the day and a fraction in nanoseconds. The last second of a minute may
be a leap second, which the fraction shows by a second of its own: `12:30:60.5` is second 59 of its
minute with a fraction of one and a half billion nanoseconds.

Adding a length of time may not leave the day. The time since another one is exact, so that the sum
of a time and a length is that length later.
-/

namespace ProcessFlow

def secondsPerDay : Nat := 86400

/-- A time of day: whole seconds since midnight and nanoseconds, which count a leap second at the
end of a minute from one billion on. -/
structure TimeOfDay where
  second : Nat
  nano : Nat
  second_lt : second < secondsPerDay
  nano_lt : nano < 2 * nanosPerSecond
  leap_at_end : nanosPerSecond ≤ nano → second % 60 = 59
deriving DecidableEq

namespace TimeOfDay

def midnight : TimeOfDay := ⟨0, 0, by decide, by decide, by decide⟩

instance : Inhabited TimeOfDay := ⟨midnight⟩

/-- A leap second, or a moment within it. -/
def isLeap (time : TimeOfDay) : Bool := nanosPerSecond ≤ time.nano

def ofHms? (hour minute second : Nat) : Option TimeOfDay :=
  if clock : hour < 24 ∧ minute < 60 ∧ second < 60 then
    some ⟨hour * 3600 + minute * 60 + second, 0, by unfold secondsPerDay; omega, by decide,
      fun leap => absurd leap (by decide)⟩
  else none

/-! ## Order -/

instance : LT TimeOfDay where
  lt left right := left.second < right.second ∨
    left.second = right.second ∧ left.nano < right.nano

instance : LE TimeOfDay where
  le left right := left.second < right.second ∨
    left.second = right.second ∧ left.nano ≤ right.nano

instance : DecidableLT TimeOfDay := fun left right =>
  inferInstanceAs (Decidable (left.second < right.second ∨
    left.second = right.second ∧ left.nano < right.nano))

instance : DecidableLE TimeOfDay := fun left right =>
  inferInstanceAs (Decidable (left.second < right.second ∨
    left.second = right.second ∧ left.nano ≤ right.nano))

theorem lt_iff {left right : TimeOfDay} : left < right ↔
    left.second < right.second ∨ left.second = right.second ∧ left.nano < right.nano := Iff.rfl

theorem le_iff {left right : TimeOfDay} : left ≤ right ↔
    left.second < right.second ∨ left.second = right.second ∧ left.nano ≤ right.nano := Iff.rfl

/-! ## Arithmetic -/

/-- Nanoseconds since midnight on a clock without leap seconds. -/
def position (time : TimeOfDay) : Nat := time.second * nanosPerSecond + time.nano

/-- The time at a position of the day that is no leap second, if the day has that position. -/
def ofPosition? (position : Int) : Option TimeOfDay :=
  if inside : 0 ≤ position ∧ position < secondsPerDay * nanosPerSecond then
    some ⟨position.toNat / nanosPerSecond, position.toNat % nanosPerSecond,
      Nat.div_lt_of_lt_mul (by unfold nanosPerSecond secondsPerDay at *; omega),
      by unfold nanosPerSecond; omega, by unfold nanosPerSecond; omega⟩
  else none

/-- A moment of the same leap second, if the fraction lies within it. -/
def withinLeap? (time : TimeOfDay) (leap : nanosPerSecond ≤ time.nano) (nano : Int) :
    Option TimeOfDay :=
  if inside : nanosPerSecond ≤ nano ∧ nano < 2 * nanosPerSecond then
    some ⟨time.second, nano.toNat, time.second_lt, by omega, fun _ => time.leap_at_end leap⟩
  else none

/-- The time a length later on the same day. From within a leap second, a length may stay in it,
go back before it, or leave it; past its end the leap second has taken a second of the length. -/
def add? (time : TimeOfDay) (length : Duration) : Option TimeOfDay :=
  let reached := (time.position : Int) + length.nanoseconds
  if leap : nanosPerSecond ≤ time.nano then
    let nano := (time.nano : Int) + length.nanoseconds
    (time.withinLeap? leap nano).or
      (ofPosition? (if nano < nanosPerSecond then reached else reached - nanosPerSecond))
  else ofPosition? reached

/-- The length of time from an earlier time to this one, negative if that is later. A leap second
counts where it lies between the two. -/
def since (time earlier : TimeOfDay) : Duration :=
  let clock := (time.position : Int) - earlier.position
  if earlier.second < time.second ∧ earlier.isLeap then ⟨clock + nanosPerSecond⟩
  else if time.second < earlier.second ∧ time.isLeap then ⟨clock - nanosPerSecond⟩
  else ⟨clock⟩

/-! ## Text -/

/-- The digits of a fraction of a second: three, six or nine of them, the fewest that are exact, and
none for a whole second. -/
def fractionText (fraction : Nat) : List Char :=
  if fraction = 0 then []
  else if fraction % 1000000 = 0 then '.' :: fixedDigits 3 (fraction / 1000000)
  else if fraction % 1000 = 0 then '.' :: fixedDigits 6 (fraction / 1000)
  else '.' :: fixedDigits 9 fraction

/-- The characters of a time, with second 60 for a leap second. -/
def chars (time : TimeOfDay) : List Char :=
  let second := if time.isLeap then 60 else time.second % 60
  let fraction := if time.isLeap then time.nano - nanosPerSecond else time.nano
  fixedDigits 2 (time.second / 3600) ++ ':' :: fixedDigits 2 (time.second / 60 % 60) ++
    ':' :: fixedDigits 2 second ++ fractionText fraction

/-- The text of a time, as `09:30:00` or `09:30:00.250`. -/
def text (time : TimeOfDay) : String := String.ofList time.chars

/-- The hour and minute of a time, as `09:30`. -/
def minuteText (time : TimeOfDay) : String :=
  String.ofList (fixedDigits 2 (time.second / 3600) ++ ':' :: fixedDigits 2 (time.second / 60 % 60))

/-- A number of one or two digits after blanks, and what follows it. -/
def field? (text : List Char) : Option (Nat × List Char) :=
  let (digits, rest) := takeDigits 2 (skipBlank text)
  if digits.isEmpty then none else some (decimalValue digits, rest)

def colonField? : List Char → Option (Nat × List Char)
  | ':' :: rest => field? rest
  | _ => none

/-- The fraction of a second at the end of a text, in nanoseconds. Digits beyond the ninth are cut
off. -/
def fraction? : List Char → Option Nat
  | [] => some 0
  | '.' :: rest =>
    let (digits, after) := spanDigits rest
    if digits.isEmpty || !after.isEmpty then none
    else some (decimalValue ((digits ++ List.replicate 9 '0').take 9))
  | _ => none

/-- The time of fields on the clock; second 60 is the leap second after second 59. -/
def ofFields? (hour minute second fraction : Nat) : Option TimeOfDay :=
  if fits : hour < 24 ∧ minute < 60 ∧ second ≤ 60 ∧ fraction < nanosPerSecond then
    if leap : second = 60 then
      some ⟨hour * 3600 + minute * 60 + 59, fraction + nanosPerSecond,
        by unfold secondsPerDay; omega, by omega, by omega⟩
    else
      some ⟨hour * 3600 + minute * 60 + second, fraction,
        by unfold secondsPerDay; omega, by omega, by omega⟩
  else none

/-- Read `HH:MM`, `HH:MM:SS` or `HH:MM:SS.fraction`. -/
def ofChars? (text : List Char) : Option TimeOfDay := do
  let (hour, rest) ← field? text
  let (minute, rest) ← colonField? rest
  if rest.isEmpty then ofFields? hour minute 0 0
  else
    let (second, rest) ← colonField? rest
    let fraction ← fraction? rest
    ofFields? hour minute second fraction

end TimeOfDay

/-- A text that is no time of day, without the blanks around it. -/
structure TimeError where
  text : String
deriving DecidableEq

def TimeError.message (error : TimeError) : String :=
  "Invalid time of day '" ++ error.text ++ "': expected HH:MM or HH:MM:SS"

/-- Read a time of day, ignoring blanks around it. -/
def TimeOfDay.parse? (text : String) : Except TimeError TimeOfDay :=
  let trimmed := trimBlank text.toList
  match ofChars? trimmed with
  | some time => .ok time
  | none => .error ⟨String.ofList trimmed⟩

end ProcessFlow
