import RegularLanguages.Alphabet.Declared
import RegularLanguages.Automaton.Basic

/-!
# State diagrams

A diagram is an automaton as it is drawn: states and arrows have names, and an arrow carries a text.
`toAutomaton` numbers the states in the order in which they are named.

## Checks, in this order

1. No symbol in use is `∅`, and each stands for at most one character. In use are the symbols of the
   declared alphabet, or those of the arrows where none is declared.
2. No state is named twice.
3. The start, then the accepting states, are named.
4. For each arrow: its two ends are named, and its symbol is in the alphabet or stands for nothing.
-/

namespace RegularLanguages

/-- An arrow between two named states. An empty symbol or `ε` reads nothing. -/
structure Arrow where
  source : String
  symbol : String
  target : String
  deriving DecidableEq, Repr

/-- A diagram. Where no alphabet is declared, the arrows determine it. -/
structure Diagram where
  alphabet : Option (List String)
  states : List String
  start : String
  accepting : List String
  arrows : List Arrow
  deriving DecidableEq, Repr

namespace Diagram

/-! ## Parts -/

/-- The symbols in use: the declared ones, or those of the arrows. -/
def symbolsInUse (d : Diagram) : List String := d.alphabet.getD (d.arrows.map Arrow.symbol)

/-- The alphabet of the diagram. -/
def toAlphabet (d : Diagram) : Except Error Alphabet :=
  if d.symbolsInUse.any fun s => s.toList.contains Spelling.emptySetSign then
    .error .emptySetSymbol
  else Alphabet.ofDeclared d.symbolsInUse

/-- The first name that occurs a second time, where the names in `before` have occurred already. -/
def firstRepeated? (before : List String) : List String → Option String
  | [] => none
  | name :: rest => if name ∈ before then some name else firstRepeated? (name :: before) rest

/-- The number of a state. -/
def stateNumber (d : Diagram) (name : String) : Except Error Nat :=
  match d.states.idxOf? name with
  | some q => .ok q
  | none => .error (.unknownState name)

/-- The label for the symbol of an arrow. -/
def label (alphabet : Alphabet) (symbol : String) : Except Error Label :=
  match Alphabet.Reading.ofText symbol with
  | .nothing => .ok .epsilon
  | .one c =>
    match alphabet.idOf? c with
    | some id => .ok (.symbol id)
    | none => .error (.missingSymbol c alphabet)
  | .several => .error (.longTransitionSymbol symbol)

/-! ## The automaton -/

/-- States without arrows, at least one. -/
def bare (alphabet : Alphabet) (count start : Nat) : Automaton :=
  ((Automaton.ofStart alphabet).addStates (count - 1)).setStart start

/-- Makes the named states accepting. -/
def addAccepting (d : Diagram) : List String → Automaton → Except Error Automaton
  | [], m => .ok m
  | name :: rest, m =>
    match d.stateNumber name with
    | .ok q => d.addAccepting rest (m.addAccepting q)
    | .error e => .error e

/-- Adds one arrow. -/
def addArrow (d : Diagram) (m : Automaton) (arrow : Arrow) : Except Error Automaton :=
  (d.stateNumber arrow.source).bind fun source =>
    (d.stateNumber arrow.target).bind fun target =>
      (label m.alphabet arrow.symbol).map fun label => m.addTransition source label target

/-- Adds the arrows. -/
def addArrows (d : Diagram) : List Arrow → Automaton → Except Error Automaton
  | [], m => .ok m
  | arrow :: rest, m =>
    match d.addArrow m arrow with
    | .ok m => d.addArrows rest m
    | .error e => .error e

/-- The automaton that the diagram shows. -/
def toAutomaton (d : Diagram) : Except Error Automaton :=
  d.toAlphabet.bind fun alphabet =>
    match firstRepeated? [] d.states with
    | some name => .error (.repeatedState name)
    | none =>
      (d.stateNumber d.start).bind fun start =>
        (d.addAccepting d.accepting (bare alphabet d.states.length start)).bind
          (d.addArrows d.arrows)

end Diagram

end RegularLanguages
