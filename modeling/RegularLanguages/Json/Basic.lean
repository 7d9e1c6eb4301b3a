/-!
# JSON values

A value of the JSON data format, as close to its text as the readers of this library need it: a
number is kept as its literal, and an object keeps its members in order, repeated ones included.

A string literal may hold the escape of half a surrogate pair without the other half. The grammar of
JSON allows it, but it stands for no text; it is represented by `none`.
-/

namespace RegularLanguages

/-- A JSON value. -/
inductive Json where
  | null
  | bool (value : Bool)
  | number (literal : String)
  | string (text : Option String)
  | array (items : List Json)
  | object (members : List (Option String × Json))
  deriving Repr

namespace Json

/-- The text of a string. -/
def text? : Json → Option String
  | string text => text
  | _ => none

/-- The texts of a list of strings. -/
def texts? : Json → Option (List String)
  | array items => items.mapM text?
  | _ => none

/-- The value of a number that is written in decimal digits only and fits into 32 bits. -/
def uint32? : Json → Option UInt32
  | number literal =>
    if literal.toList.all Char.isDigit then
      let value := literal.toList.foldl (fun value c => 10 * value + (c.toNat - '0'.toNat)) 0
      if value < UInt32.size then some (UInt32.ofNat value) else none
    else none
  | _ => none

/-- The values of the members with one of the given keys, if each key occurs at most once and every
key has a text. Other members are passed over. -/
def memberFields? (keys : List String) (members : List (Option String × Json)) :
    Option (List (Option Json)) :=
  if members.all (fun member => member.1.isSome)
      && keys.all (fun key => (members.map Prod.fst).count (some key) ≤ 1) then
    some (keys.map fun key => (members.find? fun member => member.1 = some key).map Prod.snd)
  else none

/-- The values of a list in place of the given keys; what is missing at the end is absent. -/
def itemFields? (keys : List String) (items : List Json) : Option (List (Option Json)) :=
  if items.length ≤ keys.length then
    some ((items.map some) ++ List.replicate (keys.length - items.length) none)
  else none

/-- A record with the given keys: an object, or the values alone in the order of the keys. -/
def fields? (keys : List String) : Json → Option (List (Option Json))
  | object members => memberFields? keys members
  | array items => itemFields? keys items
  | _ => none

end Json

end RegularLanguages
