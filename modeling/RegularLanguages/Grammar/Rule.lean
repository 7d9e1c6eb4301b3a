/-!
# Rules of a context-free grammar

A rule replaces a named nonterminal by a row of symbols. It also says of which kind the nodes are
that stand for its applications, so that a reader of a parse tree never has to look at rule numbers.
-/

namespace RegularLanguages

/-- What an application of a rule stands for in a regex. `forward` stands for its only operand. -/
inductive Kind where
  | union
  | emptyUnion
  | empty
  | concatenation
  | option
  | star
  | plus
  | repetition
  | paren
  | terminal
  | digits
  | forward
  deriving DecidableEq, Repr

/-- One symbol on the right of a rule. -/
inductive Symbol where
  | terminal (c : Char)
  | nonterminal (name : String)
  deriving DecidableEq, Repr

/-- A terminal is shown between quotes, a nonterminal by its name. -/
protected def Symbol.toString : Symbol → String
  | .terminal c => "'" ++ String.singleton c ++ "'"
  | .nonterminal name => name

instance : ToString Symbol := ⟨Symbol.toString⟩

/-- The rule `lhs -> rhs`, whose applications are nodes of the given kind. -/
structure Rule where
  lhs : String
  rhs : List Symbol
  kind : Kind
  deriving DecidableEq, Repr

/-- The rule on one line; an empty right side is shown as `ε`. -/
protected def Rule.toString (rule : Rule) : String :=
  let right := if rule.rhs.isEmpty then ["ε"] else rule.rhs.map toString
  rule.lhs ++ " -> " ++ " ".intercalate right

instance : ToString Rule := ⟨Rule.toString⟩

end RegularLanguages
