import RegularLanguages.Proofs.Automaton.Lift

/-!
# How many states the constructions make

Aligning two operands leaves their states alone, so the number of states of a construction is told by
those of its operands, whatever their alphabets are.
-/

namespace RegularLanguages.Automaton

/-! ## Operators -/

@[simp] theorem numStates_align_left (a b : Automaton) : (align a b).1.numStates = a.numStates := by
  unfold align
  split
  · rfl
  · exact numStates_relabel a _

@[simp] theorem numStates_align_right (a b : Automaton) : (align a b).2.numStates = b.numStates := by
  unfold align
  split
  · rfl
  · exact numStates_relabel b _

@[simp] theorem numStates_emptyWord (alphabet : Alphabet) : (emptyWord alphabet).numStates = 1 := rfl

@[simp] theorem numStates_union (a b : Automaton) :
    (a.union b).numStates = a.numStates + b.numStates + 2 := by
  simp only [union, unionAligned, numStates_addAccepting, numStates_addEpsilons,
    numStates_addState, numStates_embed, numStates_ofStart, numStates_align_left,
    numStates_align_right]
  omega

@[simp] theorem numStates_concat (a b : Automaton) :
    (a.concat b).numStates = a.numStates + b.numStates := by
  simp [concat, concatAligned]

@[simp] theorem numStates_star (a : Automaton) : a.star.numStates = a.numStates + 1 := by
  simp [star, Nat.add_comm]

@[simp] theorem numStates_plus (a : Automaton) : a.plus.numStates = 2 * a.numStates + 1 := by
  rw [plus, numStates_concat, numStates_star]
  omega

@[simp] theorem numStates_optional (a : Automaton) : a.optional.numStates = a.numStates + 3 := by
  rw [optional, numStates_union, numStates_emptyWord]

/-! ## Powers -/

theorem Layout.numStates_appendCopies (a : Automaton) (n : Nat) (layout : Layout) :
    (layout.appendCopies a n).body.numStates = layout.body.numStates + n * a.numStates := by
  induction n generalizing layout with
  | zero => simp [appendCopies]
  | succ n ih =>
    rw [appendCopies, ih, append, numStates_addEpsilons, numStates_embed, Nat.succ_mul]
    omega

/-- A power has the states of its copies, and one state if there are no copies. -/
theorem numStates_power (a : Automaton) (n : Nat) :
    (a.power n).numStates = if n = 0 then 1 else a.numStates * n := by
  cases n with
  | zero => rfl
  | succ n =>
    rw [power, Layout.close, numStates_addAllAccepting, Layout.numStates_appendCopies,
      numStates_clearAccepting, if_neg (Nat.succ_ne_zero n), Nat.mul_succ, Nat.mul_comm]
    omega

end RegularLanguages.Automaton
