import RegularLanguages.Automaton.Reachability

/-!
# Running an automaton

An automaton reads a word by keeping the set of the states it may be in. The set is closed under ε
moves before the first symbol and after each symbol, so at the end it suffices to look whether it
has an accepting state. Once it is empty, the rest of the word is not read.
-/

namespace RegularLanguages.Automaton

/-- The states that an edge for the symbol leads to from the set, before closing it. -/
def targets (m : Automaton) (states : StateSet) (id : Nat) : List Nat :=
  states.toList.flatMap (m.successors (.symbol id))

/-- The closed set of states after one symbol. A symbol outside the alphabet labels no edge, so it
leads nowhere. -/
def step (m : Automaton) (states : StateSet) (id : Nat) : StateSet :=
  m.closureFrom (m.targets states id)

/-- Whether a row of symbol numbers leads from a set of states to an accepting state. No step is made
from no states. -/
def acceptsFrom (m : Automaton) (step : StateSet → Nat → StateSet) : StateSet → List Nat → Bool
  | states, [] => m.acceptsAny states
  | states, id :: rest => if states.isEmpty then false else m.acceptsFrom step (step states id) rest

/-- Whether the automaton accepts a row of symbol numbers. -/
def acceptsSymbols (m : Automaton) (ids : List Nat) : Bool :=
  m.acceptsFrom m.step m.startClosure ids

/-- Whether the automaton accepts a word. A word with a character outside the alphabet is
refused. -/
def accepts (m : Automaton) (word : String) : Bool :=
  match m.alphabet.encode? word with
  | some ids => m.acceptsSymbols ids
  | none => false

/-! ## Listing -/

/-- Adds a value to the group with the given key; a new key opens a group at the end. -/
def addToGroup {α β : Type} [DecidableEq α] (key : α) (value : β) :
    List (α × List β) → List (α × List β)
  | [] => [(key, [value])]
  | (k, values) :: rest =>
    if k = key then (k, values ++ [value]) :: rest else (k, values) :: addToGroup key value rest

/-- Values grouped by key, the keys in the order of their first occurrence. -/
def groupByKey {α β : Type} [DecidableEq α] (pairs : List (α × β)) : List (α × List β) :=
  pairs.foldl (fun groups pair => addToGroup pair.1 pair.2 groups) []

/-- The transitions grouped by source, and for each source by the text of the label. -/
def listing (m : Automaton) : List (Nat × List (String × List Nat)) :=
  (groupByKey (m.transitions.map fun (q, label, target) => (q, (m.labelText label, target)))).map
    fun (q, edges) => (q, groupByKey edges)

end RegularLanguages.Automaton
