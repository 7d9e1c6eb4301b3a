import RegularLanguages.Diagram.Basic
import RegularLanguages.Json.Reader
import RegularLanguages.Json.Writer

/-!
# Diagrams as text

A diagram is written as a JSON record. The alphabet is left out where none is declared; when a
diagram is read, a missing alphabet and `null` both mean that none is declared, and missing
accepting states or transitions are none. Other keys are passed over.
-/

namespace RegularLanguages

namespace Arrow

/-- The keys of the record of an arrow, in order. -/
def keys : List String := ["from", "symbol", "to"]

/-- The arrow of a JSON value. -/
def ofJson? (value : Json) : Option Arrow :=
  match value.fields? keys with
  | some [some source, some symbol, some target] =>
    source.text?.bind fun source =>
      symbol.text?.bind fun symbol =>
        target.text?.map fun target => ⟨source, symbol, target⟩
  | _ => none

/-- The JSON value of an arrow. -/
def toJson (arrow : Arrow) : Json :=
  .object [(some "from", .string (some arrow.source)), (some "symbol", .string (some arrow.symbol)),
    (some "to", .string (some arrow.target))]

end Arrow

namespace Diagram

/-- The keys of the record of a diagram, in order. -/
def keys : List String := ["alphabet", "states", "start", "accepting", "transitions"]

/-! ## Reading -/

/-- A declared alphabet, which may be absent. -/
def declared? : Option Json → Option (Option (List String))
  | none => some none
  | some .null => some none
  | some value => value.texts?.map some

/-- A list of names, which is empty where it is absent. -/
def names? : Option Json → Option (List String)
  | none => some []
  | some value => value.texts?

/-- A list of arrows, which is empty where it is absent. -/
def arrows? : Option Json → Option (List Arrow)
  | none => some []
  | some (.array items) => items.mapM Arrow.ofJson?
  | some _ => none

/-- The diagram of a JSON value. -/
def ofJson? (value : Json) : Option Diagram :=
  match value.fields? keys with
  | some [alphabet, some states, some start, accepting, arrows] =>
    (declared? alphabet).bind fun alphabet =>
      states.texts?.bind fun states =>
        start.text?.bind fun start =>
          (names? accepting).bind fun accepting =>
            (arrows? arrows).map fun arrows => ⟨alphabet, states, start, accepting, arrows⟩
  | _ => none

/-- Reads a diagram. -/
def parse (text : String) : Except Error Diagram :=
  match (Json.parse? text).bind ofJson? with
  | some d => .ok d
  | none => .error .unreadableDiagram

/-! ## Writing -/

/-- The JSON value of a list of texts. -/
def jsonOfTexts (texts : List String) : Json := .array (texts.map fun text => .string (some text))

/-- The members that declare the alphabet. -/
def alphabetMembers : Option (List String) → List (Option String × Json)
  | some symbols => [(some "alphabet", jsonOfTexts symbols)]
  | none => []

/-- The JSON value of a diagram. -/
def toJson (d : Diagram) : Json :=
  .object (alphabetMembers d.alphabet ++
    [(some "states", jsonOfTexts d.states), (some "start", .string (some d.start)),
      (some "accepting", jsonOfTexts d.accepting),
      (some "transitions", .array (d.arrows.map Arrow.toJson))])

/-- Writes a diagram. -/
def render (d : Diagram) : String := d.toJson.render

end Diagram

end RegularLanguages
