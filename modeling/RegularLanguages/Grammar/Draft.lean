import RegularLanguages.Error
import RegularLanguages.Grammar.SelfDerivation

/-!
# Drafts of grammars

A draft collects rules and declarations. `build` checks them and freezes the draft into a grammar.

## Checks, in this order

1. Every nonterminal on the right of a rule is defined: it is the left side of a rule, or declared.
   The rules are looked at in order, and each from left to right.
2. The start symbol is defined.
3. No nonterminal derives itself without reading anything.

A declared nonterminal may end up without rules; then it derives nothing.
-/

namespace RegularLanguages

/-- Rules and declarations, in the order in which they were added. -/
structure Draft where
  start : String
  rules : List Rule
  declared : List String

namespace Draft

/-- A draft without rules. -/
def ofStart (start : String) : Draft := ⟨start, [], []⟩

/-- Adds a rule. -/
def addRule (d : Draft) (rule : Rule) : Draft := { d with rules := d.rules ++ [rule] }

/-- Declares a nonterminal. -/
def declare (d : Draft) (name : String) : Draft := { d with declared := d.declared ++ [name] }

/-- The names of all defined nonterminals, behind the start symbol, each once. A name's place in
this list stands for it. -/
def nonterminals (d : Draft) : List String :=
  (d.start :: (d.rules.map Rule.lhs ++ d.declared)).eraseDups

/-- Whether a nonterminal has a rule or is declared. -/
def defines (d : Draft) (name : String) : Bool :=
  (d.rules.map Rule.lhs).contains name || d.declared.contains name

/-- The items of the right side of a rule. -/
def resolveSymbols (d : Draft) (rule : Rule) : List Symbol → Except Error (List Item)
  | [] => .ok []
  | .terminal c :: rest => (d.resolveSymbols rule rest).map (.terminal c :: ·)
  | .nonterminal name :: rest =>
    match d.nonterminals.idxOf? name with
    | some id =>
      if d.defines name then (d.resolveSymbols rule rest).map (.nonterminal id :: ·)
      else .error (.undefinedNonterminal name rule)
    | none => .error (.undefinedNonterminal name rule)

/-- The production of the rule with the given number. -/
def resolveRule (d : Draft) (rule : Rule) (number : Nat) : Except Error Production :=
  (d.resolveSymbols rule rule.rhs).map fun items =>
    ⟨number, rule.kind, (d.nonterminals.idxOf? rule.lhs).getD 0, items⟩

/-- The productions of a row of rules, the first of which has the given number. -/
def resolveRules (d : Draft) : List Rule → Nat → Except Error (List Production)
  | [], _ => .ok []
  | rule :: rest, number =>
    match d.resolveRule rule number with
    | .error e => .error e
    | .ok production => (d.resolveRules rest (number + 1)).map (production :: ·)

/-- The grammar of the draft, with the given productions. -/
def freeze (d : Draft) (productions : List Production) : Grammar :=
  let names := d.nonterminals
  ⟨d.start, d.rules, names, productions, Grammar.nullableAfter productions names.length⟩

/-- Checks the draft and makes a grammar of it. -/
def build (d : Draft) : Except Error Grammar :=
  match d.resolveRules d.rules 0 with
  | .error e => .error e
  | .ok productions =>
    if d.defines d.start then
      let g := d.freeze productions
      match Grammar.selfDerivation? g.nonterminals.length productions g.nullable with
      | some id => .error (.selfDerivation (g.nonterminals.getD id ""))
      | none => .ok g
    else .error (.undefinedStart d.start)

end Draft

end RegularLanguages
