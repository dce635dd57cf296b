import ProcessFlow.Text.Digits

/-! # Lengths of time

A length of time is a whole number of nanoseconds of either sign. It is written in seconds, as
`PT5400S`, `-PT0.5S`, or `P0D` when it is empty.
-/

namespace ProcessFlow

def nanosPerSecond : Nat := 1000000000

/-- A length of time of either sign, to the nanosecond. -/
structure Duration where
  nanoseconds : Int
deriving DecidableEq

namespace Duration

/-- The digits of a fraction of a second, without zeros at the end. -/
def fractionDigits (nanoseconds : Nat) : List Char :=
  ((fixedDigits 9 nanoseconds).reverse.dropWhile (· == '0')).reverse

def text (duration : Duration) : String :=
  if duration.nanoseconds = 0 then "P0D"
  else
    let size := duration.nanoseconds.natAbs
    let fraction := size % nanosPerSecond
    (if duration.nanoseconds < 0 then "-PT" else "PT") ++
      String.ofList (decimal (size / nanosPerSecond)) ++
      (if fraction = 0 then "" else "." ++ String.ofList (fractionDigits fraction)) ++ "S"

end Duration

end ProcessFlow
