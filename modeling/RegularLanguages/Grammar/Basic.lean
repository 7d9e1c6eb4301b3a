import RegularLanguages.Grammar.Rule

/-!
# Context-free grammars

A grammar holds its rules twice: as they were written, with named nonterminals, and as productions,
in which a nonterminal is its place in the list of names. The start symbol has place 0.

## Nullable nonterminals

A nonterminal is nullable if it derives the empty word. A pass over the productions adds the left
sides whose items are all known to be nullable. A pass that is not the last one adds a nonterminal,
so as many passes as there are nonterminals reach the end.
-/

namespace RegularLanguages

/-- A symbol on the right of a production. -/
inductive Item where
  | terminal (c : Char)
  | nonterminal (id : Nat)
  deriving DecidableEq, Repr

/-- Whether an item is a terminal. -/
def Item.isTerminal : Item → Bool
  | .terminal _ => true
  | .nonterminal _ => false

/-- Whether an item is one of the known nullable nonterminals. -/
def Item.isNullableIn (known : List Nat) : Item → Bool
  | .terminal _ => false
  | .nonterminal id => known.contains id

/-- A rule by its number and kind, with nonterminals by their places. -/
structure Production where
  rule : Nat
  kind : Kind
  lhs : Nat
  items : List Item
  deriving DecidableEq, Repr

/-- A checked grammar. -/
structure Grammar where
  start : String
  rules : List Rule
  nonterminals : List String
  productions : List Production
  nullable : List Nat

namespace Grammar

/-! ## Nullable nonterminals -/

/-- Adds the left side of a production whose items are all known to be nullable. -/
def addNullable (known : List Nat) (p : Production) : List Nat :=
  if known.contains p.lhs then known
  else if p.items.all (Item.isNullableIn known) then p.lhs :: known
  else known

/-- One pass over the productions. -/
def nullablePass (productions : List Production) (known : List Nat) : List Nat :=
  productions.foldl addNullable known

/-- The known nullable nonterminals after a number of passes. -/
def nullableAfter (productions : List Production) : Nat → List Nat
  | 0 => []
  | n + 1 => nullablePass productions (nullableAfter productions n)

/-- Whether the named nonterminal derives the empty word. An unknown name does not. -/
def isNullable (g : Grammar) (name : String) : Bool :=
  match g.nonterminals.idxOf? name with
  | some id => g.nullable.contains id
  | none => false

/-! ## Printing -/

/-- The rules, one on a line. -/
protected def toString (g : Grammar) : String :=
  String.join (g.rules.map fun rule => toString rule ++ "\n")

instance : ToString Grammar := ⟨Grammar.toString⟩

end Grammar

end RegularLanguages
