import RegularLanguages.Automaton.Lift

/-!
# The algebra of automata

One automaton for each basic language, and one construction for each operator on languages. The
operands are values, so they are never changed.

## Mechanism

Every construction copies its operands into one row of states and joins the copies by ε moves.

* `union` has a new start, the two operands, and one new accepting state at the end.
* `concat` keeps the first operand as it is and puts the second one behind it.
* `star` has a new start, which accepts, in front of the operand.
* `plus` is the operand followed by its star; `optional` is the union with the empty word.
* `power` lays out all copies in one pass. Each pass through its loop has the states that are to be
  joined to the next copy at hand, so the cost is the size of the result.

Operands over different alphabets are first brought to the union of the two.
-/

namespace RegularLanguages.Automaton

/-! ## Basic languages -/

/-- Accepts nothing. -/
def emptyLanguage (alphabet : Alphabet) : Automaton := ofStart alphabet

/-- Accepts the empty word only. -/
def emptyWord (alphabet : Alphabet) : Automaton := (ofStart alphabet).addAccepting 0

/-- Two states joined by one edge. -/
def singleEdge (alphabet : Alphabet) (id : Nat) : Automaton :=
  ((ofStart alphabet).addState.addTransition 0 (.symbol id) 1).addAccepting 1

/-- Accepts the symbol with the given number, as a word of one symbol. -/
def ofSymbol (alphabet : Alphabet) (id : Nat) : Except Error Automaton :=
  if id < alphabet.size then .ok (singleEdge alphabet id) else .error (.unknownSymbolId id alphabet)

/-- Accepts the word that consists of one character. -/
def literal (alphabet : Alphabet) (c : Char) : Except Error Automaton :=
  match alphabet.idOf? c with
  | some id => ofSymbol alphabet id
  | none => .error (.unknownLiteral c alphabet)

/-! ## Operators -/

/-- The union of two automata over one alphabet. -/
def unionAligned (l r : Automaton) : Automaton :=
  let offset := 1 + l.numStates
  let last := offset + r.numStates
  (ofStart l.alphabet).embed l |>.embed r |>.addState
    |>.addEpsilons [0] (l.start + 1)
    |>.addEpsilons [0] (r.start + offset)
    |>.addEpsilons (l.accepting.toList.map (· + 1)) last
    |>.addEpsilons (r.accepting.toList.map (· + offset)) last
    |>.addAccepting last

/-- Accepts what either operand accepts. -/
def union (a b : Automaton) : Automaton :=
  let both := align a b
  unionAligned both.1 both.2

/-- The concatenation of two automata over one alphabet. -/
def concatAligned (l r : Automaton) : Automaton :=
  let offset := l.numStates
  l.clearAccepting.embed r
    |>.addEpsilons l.accepting.toList (r.start + offset)
    |>.addAllAccepting (r.accepting.toList.map (· + offset))

/-- Accepts a word of the first operand followed by one of the second. -/
def concat (a b : Automaton) : Automaton :=
  let both := align a b
  concatAligned both.1 both.2

/-- Accepts any number of words of the operand, one after the other. -/
def star (a : Automaton) : Automaton :=
  (ofStart a.alphabet).embed a
    |>.addEpsilons [0] (a.start + 1)
    |>.addEpsilons (a.accepting.toList.map (· + 1)) 0
    |>.addAccepting 0

/-- Accepts one word of the operand or more, one after the other. -/
def plus (a : Automaton) : Automaton := a.concat a.star

/-- Accepts what the operand accepts, and the empty word. -/
def optional (a : Automaton) : Automaton := a.union (emptyWord a.alphabet)

/-- An automaton that is being laid out copy by copy: the states so far, none of them accepting, and
the accepting states of the last copy. -/
structure Layout where
  body : Automaton
  ends : List Nat

/-- Puts one more copy behind the last one. -/
def Layout.append (a : Automaton) (layout : Layout) : Layout :=
  let offset := layout.body.numStates
  ⟨(layout.body.embed a).addEpsilons layout.ends (a.start + offset),
    a.accepting.toList.map (· + offset)⟩

/-- Puts some more copies behind the last one. -/
def Layout.appendCopies (a : Automaton) : Nat → Layout → Layout
  | 0, layout => layout
  | n + 1, layout => appendCopies a n (layout.append a)

/-- Makes the ends of the last copy accepting. -/
def Layout.close (layout : Layout) : Automaton := layout.body.addAllAccepting layout.ends

/-- Accepts exactly `count` words of the operand, one after the other. -/
def power (a : Automaton) : Nat → Automaton
  | 0 => emptyWord a.alphabet
  | n + 1 => (Layout.appendCopies a n ⟨a.clearAccepting, a.accepting.toList⟩).close

end RegularLanguages.Automaton
