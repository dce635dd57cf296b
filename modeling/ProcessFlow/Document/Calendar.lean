import ProcessFlow.Calendar.BusinessCalendar
import ProcessFlow.Json.Decode

/-! # Calendars in documents -/

namespace ProcessFlow

def TimeOfDay.ofJson? (value : Json) : Option TimeOfDay :=
  value.text?.bind fun text => (TimeOfDay.parse? text).toOption

def Day.ofJson? (value : Json) : Option Day := value.text?.bind Day.parse?

def Weekday.ofJson? (value : Json) : Option Weekday := value.text?.bind Weekday.parse?

/-- The calendar of the fields `open`, `close`, `workdays` and `holidays`, each of which has the
standard calendar's value if it is missing. -/
def WorkCalendar.ofFields? : List (Option Json) → Option WorkCalendar
  | [opening, closing, workdays, holidays] => do
    let opening ← Json.withDefault TimeOfDay.ofJson? standard.hours.opening opening
    let closing ← Json.withDefault TimeOfDay.ofJson? standard.hours.closing closing
    let workdays ← Json.withDefault (Json.list? Weekday.ofJson?) standard.workdays workdays
    let holidays ← Json.withDefault (Json.list? Day.ofJson?) standard.holidays.toList holidays
    return ⟨⟨opening, closing⟩, workdays, .ofList holidays⟩
  | _ => none

def WorkCalendar.fieldNames : List String := ["open", "close", "workdays", "holidays"]

def WorkCalendar.ofJson? (value : Json) : Option WorkCalendar :=
  (value.fields? fieldNames).bind ofFields?

end ProcessFlow
