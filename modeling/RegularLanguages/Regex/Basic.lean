/-!
# Regular expressions

The syntax tree of a regex, its text and its size. The tree keeps what was written: parentheses have
their own node, and so has the union whose first operand is left out. The text of a tree puts no
parentheses in, so only trees that follow the layers of the grammar are read back from their text.
-/

namespace RegularLanguages

/-- A regular expression as it was written. -/
inductive Regex where
  /-- Either of two operands, `a|b`. -/
  | union (a b : Regex)
  /-- The empty word or the operand, `|a`. -/
  | emptyUnion (a : Regex)
  /-- The empty word. -/
  | empty
  /-- One operand after the other, `ab`. -/
  | concatenation (a b : Regex)
  /-- The operand or the empty word, `a?`. -/
  | option (a : Regex)
  /-- Any number of times the operand, `a*`. -/
  | star (a : Regex)
  /-- At least once the operand, `a+`. -/
  | plus (a : Regex)
  /-- The operand as many times as the count says, `a^n`. -/
  | repetition (a count : Regex)
  /-- The operand between parentheses. -/
  | paren (a : Regex)
  /-- One symbol. -/
  | terminal (c : Char)
  /-- A count; it stands for no words of its own. -/
  | digits (text : String)
  deriving DecidableEq, Repr, Inhabited

namespace Regex

/-- The text of a regex. -/
protected def toString : Regex → String
  | union a b => a.toString ++ "|" ++ b.toString
  | emptyUnion a => "|" ++ a.toString
  | empty => ""
  | concatenation a b => a.toString ++ b.toString
  | option a => a.toString ++ "?"
  | star a => a.toString ++ "*"
  | plus a => a.toString ++ "+"
  | repetition a count => a.toString ++ "^" ++ count.toString
  | paren a => "(" ++ a.toString ++ ")"
  | terminal c => String.singleton c
  | digits text => text

instance : ToString Regex := ⟨Regex.toString⟩

/-- The number of nodes. -/
def size : Regex → Nat
  | union a b | concatenation a b | repetition a b => 1 + a.size + b.size
  | emptyUnion a | option a | star a | plus a | paren a => 1 + a.size
  | empty | terminal _ | digits _ => 1

end Regex

end RegularLanguages
