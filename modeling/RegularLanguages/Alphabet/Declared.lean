import RegularLanguages.Error

/-!
# Declared alphabets

An alphabet can be declared as a list of texts. Each text stands for at most one symbol: `ε` and the
empty text stand for none, and a text of several characters is refused.
-/

namespace RegularLanguages.Alphabet

/-- What a single text stands for. -/
inductive Reading where
  | nothing
  | one (c : Char)
  | several
  deriving DecidableEq

/-- The canonical form of a text, as far as it is a symbol. -/
def Reading.ofText (text : String) : Reading :=
  match (Spelling.normalise text).toList with
  | [] => .nothing
  | [c] => .one c
  | _ => .several

/-- The symbols of a list of texts; the first text with several characters is an error. -/
def declaredChars : List String → Except Error (List Char)
  | [] => .ok []
  | text :: rest =>
    match Reading.ofText text with
    | .nothing => declaredChars rest
    | .one c => (declaredChars rest).map (c :: ·)
    | .several => .error (.longAlphabetSymbol text)

/-- The alphabet declared by a list of texts. -/
def ofDeclared (texts : List String) : Except Error Alphabet := (declaredChars texts).map ofChars

end RegularLanguages.Alphabet
