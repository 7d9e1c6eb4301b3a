import RegularLanguages.Alphabet.Basic
import RegularLanguages.Grammar.Rule

/-!
# Errors

Everything that can go wrong while a grammar, a regex or a diagram is turned into an automaton.
Each constructor is one cause; `message` is the only place that knows the wording.

## Two families

A fault of the text that a person wrote is an invalid format and is shown to that person. A fault of
the grammar (it has more than one tree for a regex, or it did not pass its own checks) is an
ambiguous grammar and points to a defect of the alphabet or the rules.
-/

namespace RegularLanguages

/-- How a parse tree can fail to be a tree of the regex grammar. -/
inductive TreeFault where
  | unexpectedTerminal
  | expectedOneOperand
  | expectedTwoOperands
  | terminalNotOneSymbol
  deriving DecidableEq, Repr

/-- The wording of a tree fault. -/
def TreeFault.message : TreeFault → String
  | .unexpectedTerminal => "unexpected terminal"
  | .expectedOneOperand => "expected one operand"
  | .expectedTwoOperands => "expected two operands"
  | .terminalNotOneSymbol => "terminal must cover one symbol"

/-- A cause of failure. -/
inductive Error where
  /-- An entry of a declared alphabet has several characters. -/
  | longAlphabetSymbol (entry : String)
  /-- A symbol number lies outside the alphabet. -/
  | unknownSymbolId (id : Nat) (alphabet : Alphabet)
  /-- A literal is not in the alphabet. -/
  | unknownLiteral (c : Char) (alphabet : Alphabet)
  /-- A symbol that is needed is not in the alphabet. -/
  | missingSymbol (c : Char) (alphabet : Alphabet)
  /-- A diagram uses `∅` as a symbol. -/
  | emptySetSymbol
  /-- A transition of a diagram reads several characters. -/
  | longTransitionSymbol (entry : String)
  /-- A diagram names a state twice. -/
  | repeatedState (name : String)
  /-- A diagram refers to a state that it does not name. -/
  | unknownState (name : String)
  /-- The text of a diagram cannot be read. -/
  | unreadableDiagram
  /-- The text of the limits cannot be read. -/
  | unreadableLimits
  /-- A text, in canonical form, has no parse tree. -/
  | noTree (regex : String) (alphabet : Alphabet)
  /-- A repetition has something else than a count on its right. -/
  | countExpected
  /-- A count is no number or exceeds the limit. -/
  | countTooLarge (digits : String) (limit : Nat)
  /-- A count stands where a regex is expected. -/
  | strayCount (digits : String)
  /-- The automaton would have more states than the limit. -/
  | tooManyStates (limit : Nat)
  /-- A rule uses a nonterminal that nothing defines. -/
  | undefinedNonterminal (name : String) (rule : Rule)
  /-- Nothing defines the start symbol. -/
  | undefinedStart (name : String)
  /-- A nonterminal derives itself without reading anything. -/
  | selfDerivation (name : String)
  /-- A text, in canonical form, has several parse trees. -/
  | manyTrees (regex : String) (count : Nat) (alphabet : Alphabet)
  /-- A parse tree is not a tree of the regex grammar. -/
  | wrongTree (fault : TreeFault)
  deriving DecidableEq

namespace Error

/-- The two families of causes. -/
inductive Family where
  | invalidFormat
  | ambiguousGrammar
  deriving DecidableEq, Repr

/-- The family of a cause. -/
def family : Error → Family
  | .undefinedNonterminal .. | .undefinedStart .. | .selfDerivation .. | .manyTrees ..
  | .wrongTree .. => .ambiguousGrammar
  | _ => .invalidFormat

/-- Whether the cause lies in what a person wrote, and may be shown to that person. -/
def isUserFacing (e : Error) : Bool := e.family = .invalidFormat

/-- A text between quotation marks. -/
def quoted (text : String) : String := "\"" ++ text ++ "\""

/-- A character between quotes. -/
def quotedChar (c : Char) : String := "'" ++ String.singleton c ++ "'"

/-- The wording of a cause, without its family. -/
def detail : Error → String
  | .longAlphabetSymbol entry =>
    "alphabet symbol " ++ quoted entry ++ " is longer than one character"
  | .unknownSymbolId id alphabet => "symbol #" ++ toString id ++ notPartOf alphabet
  | .unknownLiteral c alphabet => quotedChar c ++ notPartOf alphabet
  | .missingSymbol c alphabet => "symbol " ++ quotedChar c ++ notPartOf alphabet
  | .emptySetSymbol => quotedChar Spelling.emptySetSign ++ " cannot label a transition"
  | .longTransitionSymbol entry =>
    "transition symbol " ++ quoted entry ++ " is longer than one character"
  | .repeatedState name => "state " ++ quoted name ++ " is declared twice"
  | .unknownState name => "unknown state " ++ quoted name
  | .unreadableDiagram => "automaton is not valid JSON"
  | .unreadableLimits => "config"
  | .noTree regex alphabet =>
    quoted (Spelling.display regex) ++ " is not a valid regex over " ++ toString alphabet
  | .countExpected => "'^' must be followed by a count"
  | .countTooLarge digits limit =>
    "repetition count " ++ digits ++ " exceeds the limit of " ++ toString limit
  | .strayCount digits => "count " ++ quoted digits ++ " must follow '^'"
  | .tooManyStates limit => "automaton would exceed " ++ toString limit ++ " states"
  | .undefinedNonterminal name rule =>
    "nonterminal " ++ name ++ " used in " ++ quoted (toString rule) ++ " has no rules"
  | .undefinedStart name => "start symbol " ++ name ++ " has no rules"
  | .selfDerivation name =>
    "nonterminal " ++ name ++ " derives itself without consuming input"
  | .manyTrees regex count alphabet =>
    quoted (Spelling.display regex) ++ " has " ++ toString count ++ " parse trees over "
      ++ toString alphabet
  | .wrongTree fault => "parse tree does not match the regex grammar: " ++ fault.message
where
  /-- The end of a message about a symbol that an alphabet lacks. -/
  notPartOf (alphabet : Alphabet) : String := " is not part of " ++ toString alphabet

/-- The full message: the family, then the wording. -/
def message (e : Error) : String :=
  match e.family with
  | .invalidFormat => "invalid format: " ++ e.detail
  | .ambiguousGrammar => "ambiguous grammar: " ++ e.detail

end Error

/-! ## Computations that may fail -/

/-- A result that was changed afterwards was there before. -/
theorem exists_of_map_eq_ok {ε α β : Type} {x : Except ε α} {f : α → β} {b : β}
    (h : x.map f = .ok b) : ∃ a, x = .ok a ∧ f a = b := by
  cases x with
  | error e => cases h
  | ok a => exact ⟨a, rfl, Except.ok.inj h⟩

/-- If two computations in a row succeed, then both do. -/
theorem exists_of_bind_eq_ok {ε α β : Type} {x : Except ε α} {f : α → Except ε β} {b : β}
    (h : x.bind f = .ok b) : ∃ a, x = .ok a ∧ f a = .ok b := by
  cases x with
  | error e => cases h
  | ok a => exact ⟨a, rfl, h⟩

end RegularLanguages
