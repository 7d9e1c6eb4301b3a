import RegularLanguages.Error
import RegularLanguages.Json.Reader
import RegularLanguages.Json.Writer
import RegularLanguages.Limits

/-!
# Limits as text

Limits are written as a JSON record with the keys `max_repetition` and `max_states`. When they are
read, a missing limit has its standard value and other keys are passed over.
-/

namespace RegularLanguages.Limits

/-- The keys of the record, in order. -/
def keys : List String := ["max_repetition", "max_states"]

/-- A limit that may be absent. -/
def limit? (standard : UInt32) : Option Json → Option UInt32
  | none => some standard
  | some value => value.uint32?

/-- The limits of a JSON value. -/
def ofJson? (value : Json) : Option Limits :=
  match value.fields? keys with
  | some [maxRepetition, maxStates] =>
    (limit? standard.maxRepetition maxRepetition).bind fun r =>
      (limit? standard.maxStates maxStates).map fun s => ⟨r, s⟩
  | _ => none

/-- Reads limits. -/
def parse (text : String) : Except Error Limits :=
  match (Json.parse? text).bind ofJson? with
  | some limits => .ok limits
  | none => .error .unreadableLimits

/-- The JSON value of a limit. -/
def jsonOfLimit (limit : UInt32) : Json := .number (toString limit.toNat)

/-- The JSON value of limits. -/
def toJson (limits : Limits) : Json :=
  .object [(some "max_repetition", jsonOfLimit limits.maxRepetition),
    (some "max_states", jsonOfLimit limits.maxStates)]

/-- Writes limits. -/
def render (limits : Limits) : String := limits.toJson.render

end RegularLanguages.Limits
