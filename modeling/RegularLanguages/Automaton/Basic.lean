import RegularLanguages.Alphabet.Basic
import RegularLanguages.StateSet

/-!
# Automata

A nondeterministic finite automaton with ε moves and one start state. The states are the numbers
below `numStates`; each state owns the list of its outgoing edges, in the order in which they were
added, and a repeated edge is added once.

## Mechanism

An automaton is a value. It is assembled by a handful of edits (`ofStart`, `addState`, `setStart`,
`addTransition`, `addAccepting`, `clearAccepting`, `embed`), and every construction of the library
is a composition of them. `embed` copies another automaton past the states that are there, so each
of its states moves up by the same distance.
-/

namespace RegularLanguages

/-- What an edge reads: nothing, or the symbol with a given number. -/
inductive Label where
  | epsilon
  | symbol (id : Nat)
  deriving DecidableEq, Repr

/-- The character that a label reads in an alphabet; none for ε and for a number without a
symbol. -/
def Label.char? (alphabet : Alphabet) : Label → Option Char
  | .epsilon => none
  | .symbol id => alphabet.symbol? id

/-- An edge, seen from its source. -/
structure Edge where
  label : Label
  target : Nat
  deriving DecidableEq, Repr

/-- The same edge in a copy whose states start at `offset`. -/
def Edge.shift (offset : Nat) (e : Edge) : Edge := { e with target := e.target + offset }

/-- An automaton with ε moves. Place `q` of `edges` lists the edges that leave state `q`. -/
structure Automaton where
  alphabet : Alphabet
  start : Nat
  accepting : StateSet
  edges : Array (List Edge)

namespace Automaton

/-! ## Views -/

/-- The number of states. -/
def numStates (m : Automaton) : Nat := m.edges.size

/-- The edges that leave a state; none if there is no such state. -/
def edgesFrom (m : Automaton) (q : Nat) : List Edge := m.edges.getD q []

/-- The states that an edge of the given kind leads to from `q`. -/
def successors (m : Automaton) (label : Label) (q : Nat) : List Nat :=
  (m.edgesFrom q).filterMap fun e => if e.label = label then some e.target else none

/-- A transition: source, label, destination. -/
abbrev Transition := Nat × Label × Nat

/-- All transitions, by source, and for one source in the order of its edges. -/
def transitions (m : Automaton) : List Transition :=
  (List.range m.numStates).flatMap fun q => (m.edgesFrom q).map fun e => (q, e.label, e.target)

/-- Whether the set has an accepting state. -/
def acceptsAny (m : Automaton) (states : StateSet) : Bool := states.intersects m.accepting

/-- A label as text; `ε` for a move that reads nothing. -/
def labelText (m : Automaton) (label : Label) : String :=
  match label.char? m.alphabet with
  | some c => String.singleton c
  | none => Spelling.display ""

/-! ## Edits -/

/-- One state, which is the start and accepts nothing. -/
def ofStart (alphabet : Alphabet) : Automaton := ⟨alphabet, 0, ∅, #[[]]⟩

/-- Adds a state without edges. Its number is the former number of states. -/
def addState (m : Automaton) : Automaton := { m with edges := m.edges.push [] }

/-- Adds some states without edges. -/
def addStates (m : Automaton) : Nat → Automaton
  | 0 => m
  | n + 1 => m.addState.addStates n

/-- Makes `q` the start state. -/
def setStart (m : Automaton) (q : Nat) : Automaton := { m with start := q }

/-- Adds an edge at the end of a list, unless the list has it. -/
def insertEdge (edges : List Edge) (e : Edge) : List Edge :=
  if e ∈ edges then edges else edges ++ [e]

/-- Adds a transition, unless it is there. -/
def addTransition (m : Automaton) (source : Nat) (label : Label) (target : Nat) :
    Automaton :=
  { m with edges := m.edges.modify source fun edges => insertEdge edges ⟨label, target⟩ }

/-- Adds ε moves from every state of a list to one target. -/
def addEpsilons (m : Automaton) (sources : List Nat) (target : Nat) : Automaton :=
  sources.foldl (fun m q => m.addTransition q .epsilon target) m

/-- Makes a state accepting. -/
def addAccepting (m : Automaton) (q : Nat) : Automaton :=
  { m with accepting := m.accepting.insert q }

/-- Makes every state of a list accepting. -/
def addAllAccepting (m : Automaton) (qs : List Nat) : Automaton := qs.foldl addAccepting m

/-- Makes no state accepting. -/
def clearAccepting (m : Automaton) : Automaton := { m with accepting := ∅ }

/-- Copies the states and edges of `other` past the states that are there. The first copied state
gets the former number of states as its number; start and accepting states are not copied. -/
def embed (m other : Automaton) : Automaton :=
  { m with edges := m.edges ++ other.edges.map fun edges => edges.map (Edge.shift m.numStates) }

end Automaton

end RegularLanguages
