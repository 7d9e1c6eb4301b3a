import RegularLanguages.Automaton.Basic

/-!
# Reachable states

Depth-first search in a graph on the numbers below a bound, and its two uses on an automaton: the
closure of a set of states under ε moves, and the test whether an accepting state can be reached.

## Mechanism

`search` keeps a stack of states to look at and the set of states seen so far. A state that was
seen, or that lies at or above the bound, is dropped; any other is marked and its successors go onto
the stack.

## Termination

No fuel. Marking a state lowers the number of unmarked states below the bound; dropping one shortens
the stack. The search ends because the pair of these two numbers falls lexicographically.
-/

namespace RegularLanguages

/-! ## Search -/

/-- How many states below the bound are not marked. -/
def unmarked : Nat → StateSet → Nat
  | 0, _ => 0
  | n + 1, marked => unmarked n marked + if marked.contains n then 0 else 1

theorem unmarked_insert_le (bound : Nat) (marked : StateSet) (q : Nat) :
    unmarked bound (marked.insert q) ≤ unmarked bound marked := by
  induction bound with
  | zero => exact Nat.le_refl 0
  | succ n ih =>
    simp only [unmarked, StateSet.contains_insert]
    by_cases h : n = q
    · simp [h]
      subst h
      omega
    · simp [h]
      omega

/-- Marking a fresh state leaves fewer unmarked ones. -/
theorem unmarked_insert_lt {bound : Nat} {marked : StateSet} {q : Nat} (hq : q < bound)
    (fresh : marked.contains q = false) :
    unmarked bound (marked.insert q) < unmarked bound marked := by
  induction bound with
  | zero => omega
  | succ n ih =>
    simp only [unmarked, StateSet.contains_insert]
    by_cases h : n = q
    · subst h
      have := unmarked_insert_le n marked n
      simp [fresh]
      omega
    · have := ih (by omega)
      simp [h]
      omega

/-- The states that can be reached from the stack along `next`, together with the marked ones.
Marked states are not entered again. -/
def search (next : Nat → List Nat) (bound : Nat) :
    List Nat → StateSet → StateSet
  | [], marked => marked
  | q :: stack, marked =>
    if _h : q < bound ∧ marked.contains q = false then
      search next bound (next q ++ stack) (marked.insert q)
    else search next bound stack marked
termination_by stack marked => (unmarked bound marked, stack.length)
decreasing_by
  · exact Prod.Lex.left _ _ (unmarked_insert_lt _h.1 _h.2)
  · exact Prod.Lex.right _ (by simp)

namespace Automaton

/-! ## Closure -/

/-- The states that ε moves lead to from a list of states. States that do not exist lead nowhere and
are not part of the answer. -/
def closureFrom (m : Automaton) (states : List Nat) : StateSet :=
  search (m.successors .epsilon) m.numStates states (StateSet.withCapacity m.numStates)

/-- The ε closure of one state. -/
def closureOf (m : Automaton) (q : Nat) : StateSet := m.closureFrom [q]

/-- The ε closure of a set of states. -/
def closure (m : Automaton) (states : StateSet) : StateSet := m.closureFrom states.toList

/-- The ε closure of the start state. -/
def startClosure (m : Automaton) : StateSet := m.closureOf m.start

/-! ## Emptiness -/

/-- The states that can be reached from the start along any edges. -/
def reachable (m : Automaton) : StateSet :=
  search (fun q => (m.edgesFrom q).map Edge.target) m.numStates [m.start]
    (StateSet.withCapacity m.numStates)

/-- Whether no accepting state can be reached: the automaton accepts no word at all. -/
def isEmpty (m : Automaton) : Bool := !m.acceptsAny m.reachable

end Automaton

end RegularLanguages
