import RegularLanguages.Automaton.Algebra

/-!
# The algebra in machine words

The constructions of the algebra with state numbers of 32 bits. A sum that does not fit starts again
from zero, and so does the number of states, while the row of states itself may grow on. As long as
the states of a result can be counted in 32 bits, nothing starts again, and the constructions are those
of the algebra.

## Mechanism

`next32` is the number of the state that is added next. Each copy is put there, so its value before the
copy is the distance by which the states of the copy move up (`add32`).
-/

namespace RegularLanguages

/-- The sum of two state numbers in 32 bits. -/
def add32 (a b : Nat) : Nat := (UInt32.ofNat a + UInt32.ofNat b).toNat

namespace Automaton

/-- The number of states, in 32 bits. -/
def numStates32 (m : Automaton) : UInt32 := UInt32.ofNat m.numStates

/-- The number of the state that is added next, in 32 bits. -/
def next32 (m : Automaton) : Nat := m.numStates32.toNat

/-- Copies the states and edges of `other` past the states that are there. -/
def embed32 (m other : Automaton) : Automaton :=
  { m with
    edges := m.edges ++ other.edges.map fun edges =>
      edges.map fun e => ⟨e.label, add32 e.target m.next32⟩ }

/-- The union of two automata over one alphabet. -/
def unionAligned32 (l r : Automaton) : Automaton :=
  let first := ofStart l.alphabet
  let second := first.embed32 l
  let third := second.embed32 r
  third.addState
    |>.addEpsilons [0] (add32 l.start first.next32)
    |>.addEpsilons [0] (add32 r.start second.next32)
    |>.addEpsilons (l.accepting.toList.map (add32 · first.next32)) third.next32
    |>.addEpsilons (r.accepting.toList.map (add32 · second.next32)) third.next32
    |>.addAccepting third.next32

/-- Accepts what either operand accepts. -/
def union32 (a b : Automaton) : Automaton :=
  let both := align a b
  unionAligned32 both.1 both.2

/-- The concatenation of two automata over one alphabet. -/
def concatAligned32 (l r : Automaton) : Automaton :=
  l.clearAccepting.embed32 r
    |>.addEpsilons l.accepting.toList (add32 r.start l.next32)
    |>.addAllAccepting (r.accepting.toList.map (add32 · l.next32))

/-- Accepts a word of the first operand followed by one of the second. -/
def concat32 (a b : Automaton) : Automaton :=
  let both := align a b
  concatAligned32 both.1 both.2

/-- Accepts any number of words of the operand, one after the other. -/
def star32 (a : Automaton) : Automaton :=
  let first := ofStart a.alphabet
  first.embed32 a
    |>.addEpsilons [0] (add32 a.start first.next32)
    |>.addEpsilons (a.accepting.toList.map (add32 · first.next32)) 0
    |>.addAccepting 0

/-- Puts one more copy behind the last one. -/
def Layout.append32 (a : Automaton) (layout : Layout) : Layout :=
  ⟨(layout.body.embed32 a).addEpsilons layout.ends (add32 a.start layout.body.next32),
    a.accepting.toList.map (add32 · layout.body.next32)⟩

/-- Puts some more copies behind the last one. -/
def Layout.appendCopies32 (a : Automaton) : Nat → Layout → Layout
  | 0, layout => layout
  | n + 1, layout => appendCopies32 a n (layout.append32 a)

/-- Accepts exactly `count` words of the operand, one after the other. -/
def power32 (a : Automaton) : Nat → Automaton
  | 0 => emptyWord a.alphabet
  | n + 1 => (Layout.appendCopies32 a n ⟨a.clearAccepting, a.accepting.toList⟩).close

end Automaton

end RegularLanguages
