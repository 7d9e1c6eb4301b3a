import RegularLanguages.Proofs.Automaton.Renumbering

/-!
# Powers are chains of concatenations

A power is laid out in one pass. The chain of binary concatenations makes the same automaton: the
states have the same numbers, and the edges stand in the same order. So nothing but the cost is
gained by the single pass.

The pass carries a row of copies that is not closed yet. The invariant is that closing the row after
any copy gives the chain of as many links (`Layout.same_chain`). A link looks at the states, the edges
and the list of accepting states of the chain before it, so it does not matter that the two rows of
bits behind the accepting states may have been grown in different ways.
-/

namespace RegularLanguages.Automaton

variable {m n : Automaton}

/-! ## Chains -/

/-- One copy, and then some more, each joined to the chain so far by a concatenation. -/
def chain (a : Automaton) : Nat → Automaton
  | 0 => a
  | n + 1 => (a.chain n).concat a

theorem alphabet_chain (a : Automaton) (n : Nat) : (a.chain n).alphabet = a.alphabet := by
  induction n with
  | zero => rfl
  | succ n ih => exact (alphabet_concat ih).trans ih

/-- Both automata have the same states, the same edges in the same order, the same start and the same
accepting states. -/
structure Same (m n : Automaton) : Prop where
  alphabet_eq : m.alphabet = n.alphabet
  start_eq : m.start = n.start
  edges_eq : m.edges = n.edges
  accepting_eq : m.accepting.toList = n.accepting.toList

namespace Same

theorem refl (m : Automaton) : m.Same m := ⟨rfl, rfl, rfl, rfl⟩

theorem numStates_eq (h : m.Same n) : m.numStates = n.numStates := by
  rw [numStates, numStates, h.edges_eq]

theorem transitions_eq (h : m.Same n) : m.transitions = n.transitions := by
  have hedges : m.edgesFrom = n.edgesFrom := by
    funext q
    rw [edgesFrom, edgesFrom, h.edges_eq]
  rw [transitions, transitions, h.numStates_eq, hedges]

/-- A concatenation does not tell its left operand from one that is the same. -/
theorem concatAligned_eq (h : m.Same n) (r : Automaton) : concatAligned m r = concatAligned n r := by
  have hclear : m.clearAccepting = n.clearAccepting := by
    rw [clearAccepting, clearAccepting, h.alphabet_eq, h.start_eq, h.edges_eq]
  rw [concatAligned, concatAligned, hclear, h.accepting_eq, h.numStates_eq]

end Same

/-! ## The pass -/

/-- The last copy of a row can be put behind the others. -/
theorem Layout.appendCopies_succ (a : Automaton) (n : Nat) (layout : Layout) :
    layout.appendCopies a (n + 1) = (layout.appendCopies a n).append a := by
  induction n generalizing layout with
  | zero => rfl
  | succ n ih => exact ih (layout.append a)

theorem Layout.Open.appendCopies {layout : Layout} (h : layout.Open) (a : Automaton) (n : Nat) :
    (layout.appendCopies a n).Open := by
  induction n with
  | zero => exact h
  | succ n ih =>
    rw [Layout.appendCopies_succ]
    exact ih.append a

theorem Layout.same_first (a : Automaton) :
    (Layout.close ⟨a.clearAccepting, a.accepting.toList⟩).Same a where
  alphabet_eq := by
    rw [Layout.close, alphabet_addAllAccepting]
    rfl
  start_eq := by
    rw [Layout.close, start_addAllAccepting]
    rfl
  edges_eq := by
    rw [Layout.close, addAllAccepting_eq]
    rfl
  accepting_eq := (Layout.Open.first a).toList_accepting_close

/-- **After each copy, the closed row is the chain so far.** -/
theorem Layout.same_chain (a : Automaton) (n : Nat) :
    (Layout.appendCopies a n ⟨a.clearAccepting, a.accepting.toList⟩).close.Same (a.chain n) := by
  induction n with
  | zero => exact Layout.same_first a
  | succ n ih =>
    have hopen := (Layout.Open.first a).appendCopies a n
    rw [Layout.appendCopies_succ, hopen.close_append, ih.concatAligned_eq, chain, concat,
      align_of_alphabet_eq (alphabet_chain a n)]
    exact .refl _

/-- **A power is a chain of concatenations**, state by state and edge by edge: `n + 1` copies are the
operand with `n` more concatenated to it, from the left to the right. -/
theorem power_is_chain (a : Automaton) (n : Nat) :
    (a.power (n + 1)).alphabet = (a.chain n).alphabet ∧
      (a.power (n + 1)).numStates = (a.chain n).numStates ∧
      (a.power (n + 1)).start = (a.chain n).start ∧
      (a.power (n + 1)).accepting.toList = (a.chain n).accepting.toList ∧
      (a.power (n + 1)).transitions = (a.chain n).transitions := by
  have h := Layout.same_chain a n
  exact ⟨h.alphabet_eq, h.numStates_eq, h.start_eq, h.accepting_eq, h.transitions_eq⟩

end RegularLanguages.Automaton
