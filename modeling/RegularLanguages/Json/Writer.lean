import RegularLanguages.Json.Basic

/-!
# Writing JSON text

The text of a value, without white space.

## Mechanism

In a string literal the quote, the backslash and the control characters are escaped, five of them by
a letter and the others by their number. All other characters stand for themselves. A string that
stands for no text is written as half a surrogate pair.
-/

namespace RegularLanguages.Json

/-- The lower case hexadecimal digit of a number below 16. -/
def hexDigit (n : Nat) : Char := if n < 10 then Char.ofNat (n + 48) else Char.ofNat (n + 87)

/-- A character inside a string literal. -/
def escapeChar (c : Char) : List Char :=
  if c = '"' then ['\\', '"']
  else if c = '\\' then ['\\', '\\']
  else if c = '\x08' then ['\\', 'b']
  else if c = '\x0c' then ['\\', 'f']
  else if c = '\n' then ['\\', 'n']
  else if c = '\r' then ['\\', 'r']
  else if c = '\t' then ['\\', 't']
  else if c.toNat < 0x20 then
    ['\\', 'u', '0', '0', hexDigit (c.toNat / 16), hexDigit (c.toNat % 16)]
  else [c]

/-- A string literal. -/
def renderText : Option String → List Char
  | some text => '"' :: text.toList.flatMap escapeChar ++ ['"']
  | none => ['"', '\\', 'u', 'd', '8', '0', '0', '"']

mutual

/-- The text of a value. -/
def renderChars : Json → List Char
  | null => ['n', 'u', 'l', 'l']
  | bool true => ['t', 'r', 'u', 'e']
  | bool false => ['f', 'a', 'l', 's', 'e']
  | number literal => literal.toList
  | string text => renderText text
  | array [] => ['[', ']']
  | array (item :: rest) => '[' :: renderChars item ++ renderItems rest ++ [']']
  | object [] => ['\x7b', '\x7d']
  | object ((key, value) :: rest) =>
    '\x7b' :: renderText key ++ ':' :: renderChars value ++ renderMembers rest ++ ['\x7d']

/-- Further items of a list. -/
def renderItems : List Json → List Char
  | [] => []
  | item :: rest => ',' :: renderChars item ++ renderItems rest

/-- Further members of an object. -/
def renderMembers : List (Option String × Json) → List Char
  | [] => []
  | (key, value) :: rest => ',' :: renderText key ++ ':' :: renderChars value ++ renderMembers rest

end

/-- The text of a value. -/
def render (value : Json) : String := String.ofList (renderChars value)

end RegularLanguages.Json
