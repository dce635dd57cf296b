import ProcessFlow.Config
import ProcessFlow.Document.Calendar
import ProcessFlow.Toml.Parser

/-! # Configuration files

Configurations are written in TOML. Settings that are not known are passed over, and one that is
missing has its standard value.
-/

namespace ProcessFlow

/-- The fields of a record, or of an array its leading items; items beyond the fields do not
count. -/
def Json.leadingFields? (names : List String) : Json → Option (List (Option Json))
  | .array items => fields? names (.array (items.take names.length))
  | value => value.fields? names

def WorkCalendar.ofSetting? (value : Json) : Option WorkCalendar :=
  (value.leadingFields? fieldNames).bind ofFields?

/-- The form of output that a setting names, by its word alone or by the word for something
empty. -/
def OutputFormat.ofSetting? : Json → Option OutputFormat
  | .string (some word) => ofWord? word
  | .object [(some word, .array [])] => ofWord? word
  | .object [(some word, .object [])] => ofWord? word
  | _ => none

def GlobalConfig.parse? (text : String) : Option GlobalConfig := do
  match (← Toml.parse? text).fields? ["default_format"] with
  | some [format] =>
    let format ← Json.withDefault OutputFormat.ofSetting? standard.defaultFormat format
    return ⟨format⟩
  | _ => none

def ProjectConfig.parse? (text : String) : Option ProjectConfig := do
  match (← Toml.parse? text).fields? ["calendar", "project_start"] with
  | some [calendar, start] =>
    let calendar ← Json.withDefault WorkCalendar.ofSetting? standard.calendar calendar
    let start ← Json.withDefault (fun value => (Day.ofJson? value).map some) none start
    return ⟨calendar, start⟩
  | _ => none

end ProcessFlow
