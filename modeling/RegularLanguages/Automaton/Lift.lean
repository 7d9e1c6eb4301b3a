import RegularLanguages.Automaton.Basic
import RegularLanguages.Error

/-!
# One automaton over another alphabet

An automaton over a small alphabet can be read as an automaton over a larger one: the states stay,
and each symbol number is replaced by the number of the same character in the larger alphabet.

## Mechanism

`relabel` reads the new numbers off a table that is made once. An edge whose character the new
alphabet lacks is dropped; `lift` refuses such an alphabet, so it never drops an edge.
-/

namespace RegularLanguages.Automaton

/-- The label after the symbol numbers are replaced; none if the character is lost. -/
def renumberLabel (table : Array (Option Nat)) : Label → Option Label
  | .epsilon => some .epsilon
  | .symbol id => (table.getD id none).map .symbol

/-- The edge after the symbol numbers are replaced. -/
def renumberEdge (table : Array (Option Nat)) (e : Edge) : Option Edge :=
  (renumberLabel table e.label).map fun label => ⟨label, e.target⟩

/-- The automaton over another alphabet, without the edges whose character that alphabet lacks. -/
def relabel (m : Automaton) (alphabet : Alphabet) : Automaton :=
  if alphabet = m.alphabet then m
  else
    let table := m.alphabet.renumbering alphabet
    { m with
      alphabet := alphabet
      edges := m.edges.map fun edges => edges.filterMap (renumberEdge table) }

/-- The automaton over a larger alphabet. The first symbol that the alphabet lacks is an error. -/
def lift (m : Automaton) (alphabet : Alphabet) : Except Error Automaton :=
  match m.alphabet.symbols.find? fun c => !alphabet.contains c with
  | some c => .error (.missingSymbol c alphabet)
  | none => .ok (m.relabel alphabet)

/-- Two automata over one alphabet: their own if it is the same, else the union of both. -/
def align (a b : Automaton) : Automaton × Automaton :=
  if a.alphabet = b.alphabet then (a, b)
  else
    let alphabet := a.alphabet.union b.alphabet
    (a.relabel alphabet, b.relabel alphabet)

end RegularLanguages.Automaton
