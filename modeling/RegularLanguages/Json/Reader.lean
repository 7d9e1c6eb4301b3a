import RegularLanguages.Json.Basic
import RegularLanguages.Json.Token

/-!
# Reading JSON text

The tokens of a text are fed one after the other into a machine with a stack of open lists and
objects. The machine refuses a token that cannot stand where it stands.

## Mechanism

A state says what may come next. A finished value is delivered to the innermost open list or object,
or is the answer if none is open. Each token is looked at once, so there is nothing to
prove about termination.
-/

namespace RegularLanguages.Json

/-- A list or object that waits for a value. Items and members stand there last one first; an object
also knows the key of the value. -/
inductive Frame where
  | array (items : List Json)
  | object (members : List (Option String × Json)) (key : Option String)

/-- What the machine expects, and the open lists and objects around it. -/
inductive State where
  /-- A value. -/
  | value (stack : List Frame)
  /-- A value or the end of a list that was just opened. -/
  | firstItem (stack : List Frame)
  /-- A comma or the end of a list. -/
  | afterItem (items : List Json) (stack : List Frame)
  /-- A key or the end of an object that was just opened. -/
  | firstKey (stack : List Frame)
  /-- A key. -/
  | key (members : List (Option String × Json)) (stack : List Frame)
  /-- The colon behind a key. -/
  | colon (members : List (Option String × Json)) (key : Option String) (stack : List Frame)
  /-- A comma or the end of an object. -/
  | afterMember (members : List (Option String × Json)) (stack : List Frame)
  /-- The end of the text. -/
  | done (value : Json)

/-- Hands a finished value to the innermost open list or object. -/
def deliver (value : Json) : List Frame → State
  | [] => .done value
  | .array items :: stack => .afterItem (value :: items) stack
  | .object members key :: stack => .afterMember ((key, value) :: members) stack

/-- The first token of a value. -/
def startValue (stack : List Frame) : Token → Option State
  | .null => some (deliver .null stack)
  | .bool b => some (deliver (.bool b) stack)
  | .number literal => some (deliver (.number literal) stack)
  | .string text => some (deliver (.string text) stack)
  | .openBracket => some (.firstItem stack)
  | .openBrace => some (.firstKey stack)
  | _ => none

/-- One token; none if it cannot stand here. -/
def feed : State → Token → Option State
  | .value stack, token => startValue stack token
  | .firstItem stack, .closeBracket => some (deliver (.array []) stack)
  | .firstItem stack, token => startValue (.array [] :: stack) token
  | .afterItem items stack, .comma => some (.value (.array items :: stack))
  | .afterItem items stack, .closeBracket => some (deliver (.array items.reverse) stack)
  | .firstKey stack, .closeBrace => some (deliver (.object []) stack)
  | .firstKey stack, .string text => some (.colon [] text stack)
  | .key members stack, .string text => some (.colon members text stack)
  | .colon members key stack, .colon => some (.value (.object members key :: stack))
  | .afterMember members stack, .comma => some (.key members stack)
  | .afterMember members stack, .closeBrace => some (deliver (.object members.reverse) stack)
  | _, _ => none

/-- A row of tokens. -/
def feedAll : State → List Token → Option State
  | state, [] => some state
  | state, token :: rest => (feed state token).bind fun next => feedAll next rest

/-- The value that a text stands for, if it is a JSON text. -/
def parse? (text : String) : Option Json :=
  match (scan text.toList).bind (feedAll (.value [])) with
  | some (.done value) => some value
  | _ => none

end RegularLanguages.Json
