import RegularLanguages.Automaton.Algebra
import RegularLanguages.Automaton.Run

/-!
# Automata that remember closures

Reading many words on one automaton asks for the same ε closures again and again. A `Memo` is an
automaton together with a table of the closures of its states, which the first query fills.

## Mechanism

The table holds the closure of each state by its number, so it speaks about the edges alone. An edit
that touches states or edges throws the table away; one that only moves the start or the accepting
states keeps it. `concat` and `power` go on from a copy of their operand and so start with the table
of that copy; the first `embed` throws it away.

A query answers from the table and hands back the automaton with the table filled. A word with a
character outside the alphabet is refused at once, and fills no table.
-/

namespace RegularLanguages

/-- An automaton and, once a query has filled it, the table of the closures of its states. -/
structure Memo where
  automaton : Automaton
  table : Option (Array StateSet)

namespace Memo

/-- Nothing is remembered yet. -/
def ofAutomaton (m : Automaton) : Memo := ⟨m, none⟩

/-! ## Edits -/

/-- One state, which is the start and accepts nothing. -/
def ofStart (alphabet : Alphabet) : Memo := ofAutomaton (.ofStart alphabet)

/-- Adds a state without edges. -/
def addState (m : Memo) : Memo := ⟨m.automaton.addState, none⟩

/-- Makes `q` the start state. -/
def setStart (m : Memo) (q : Nat) : Memo := { m with automaton := m.automaton.setStart q }

/-- Adds a transition, unless it is there. -/
def addTransition (m : Memo) (source : Nat) (label : Label) (target : Nat) : Memo :=
  ⟨m.automaton.addTransition source label target, none⟩

/-- Makes a state accepting. -/
def addAccepting (m : Memo) (q : Nat) : Memo := { m with automaton := m.automaton.addAccepting q }

/-- Makes no state accepting. -/
def clearAccepting (m : Memo) : Memo := { m with automaton := m.automaton.clearAccepting }

/-- Copies the states and edges of `other` past the states that are there. -/
def embed (m : Memo) (other : Automaton) : Memo := ⟨m.automaton.embed other, none⟩

/-- The automaton over another alphabet. The same alphabet gives the same automaton, table
included. -/
def relabel (m : Memo) (alphabet : Alphabet) : Memo :=
  if alphabet = m.automaton.alphabet then m else ofAutomaton (m.automaton.relabel alphabet)

/-- Adds ε moves from every state of a list to one target. -/
def addEpsilons (m : Memo) (sources : List Nat) (target : Nat) : Memo :=
  sources.foldl (fun m q => m.addTransition q .epsilon target) m

/-- Makes every state of a list accepting. -/
def addAllAccepting (m : Memo) (qs : List Nat) : Memo := qs.foldl addAccepting m

/-! ## Operators that go on from a copy of their operand -/

/-- A word of the first operand followed by one of the second. -/
def concat (a b : Memo) : Memo :=
  let both := Automaton.align a.automaton b.automaton
  let l := a.relabel both.1.alphabet
  let r := both.2
  let offset := l.automaton.numStates
  l.clearAccepting.embed r
    |>.addEpsilons l.automaton.accepting.toList (r.start + offset)
    |>.addAllAccepting (r.accepting.toList.map (· + offset))

/-- Puts some more copies of `a` behind a row of copies, then makes the ends of the last copy
accepting. -/
def appendCopies (a : Automaton) : Nat → Memo → List Nat → Memo
  | 0, row, ends => row.addAllAccepting ends
  | n + 1, row, ends =>
    let offset := row.automaton.numStates
    appendCopies a n ((row.embed a).addEpsilons ends (a.start + offset))
      (a.accepting.toList.map (· + offset))

/-- Exactly `count` words of the operand, one after the other. -/
def power (a : Memo) : Nat → Memo
  | 0 => ofAutomaton (.emptyWord a.automaton.alphabet)
  | n + 1 => appendCopies a.automaton n a.clearAccepting a.automaton.accepting.toList

/-- The automaton over a larger alphabet. The first symbol that the alphabet lacks is an error. -/
def lift (m : Memo) (alphabet : Alphabet) : Except Error Memo :=
  (m.automaton.lift alphabet).map fun _ => m.relabel alphabet

/-! ## Queries -/

/-- The closures of all states, by number. -/
def closuresOf (m : Automaton) : Array StateSet :=
  ((List.range m.numStates).map m.closureOf).toArray

/-- The table: the one that is remembered, else a new one. -/
def closures (m : Memo) : Array StateSet :=
  match m.table with
  | some table => table
  | none => closuresOf m.automaton

/-- Asks a question with the table at hand, and remembers the table. -/
def ask {α : Type} (m : Memo) (question : Automaton → Array StateSet → α) : α × Memo :=
  let table := m.closures
  (question m.automaton table, { m with table := some table })

/-- The union of the entries of the table for a list of states. States without an entry add
nothing. -/
def closureIn (m : Automaton) (table : Array StateSet) (states : List Nat) : StateSet :=
  states.foldl (fun found q => found.union (table.getD q ∅)) (StateSet.withCapacity m.numStates)

/-- One symbol, with the table at hand. -/
def stepIn (m : Automaton) (table : Array StateSet) (states : StateSet) (id : Nat) : StateSet :=
  closureIn m table (m.targets states id)

/-- A row of symbols, with the table at hand. -/
def acceptsSymbolsIn (m : Automaton) (table : Array StateSet) (ids : List Nat) : Bool :=
  m.acceptsFrom (stepIn m table) (closureIn m table [m.start]) ids

/-- The ε closure of a set of states. -/
def closure (m : Memo) (states : StateSet) : StateSet × Memo :=
  m.ask fun a table => closureIn a table states.toList

/-- The ε closure of the start state. -/
def startClosure (m : Memo) : StateSet × Memo := m.ask fun a table => closureIn a table [a.start]

/-- The closed set of states after one symbol. -/
def step (m : Memo) (states : StateSet) (id : Nat) : StateSet × Memo :=
  m.ask fun a table => stepIn a table states id

/-- Whether the automaton accepts a row of symbol numbers. -/
def acceptsSymbols (m : Memo) (ids : List Nat) : Bool × Memo :=
  m.ask fun a table => acceptsSymbolsIn a table ids

/-- Whether the automaton accepts a word. -/
def accepts (m : Memo) (word : String) : Bool × Memo :=
  match m.automaton.alphabet.encode? word with
  | some ids => m.acceptsSymbols ids
  | none => (false, m)

end Memo

end RegularLanguages
