import RegularLanguages.Automaton.Equivalence
import RegularLanguages.Proofs.Automaton.Reachability

/-!
# Reading a word character by character

`accepts` first turns a word into symbol numbers and then reads those, until no state is left. Here
the automaton reads the characters themselves to the end, and a character outside the alphabet leads
nowhere. Both give the same answer (`accepts_eq`). A side of an equivalence check reads in the same
way, with the numbers taken from a table (`toList_sideStep`).

A step looks at the members of a set only. So two sets with the same members have the same future,
and equalities between sets of states are stated for their lists of members.
-/

namespace RegularLanguages.Automaton

/-! ## One character -/

/-- The states after one character; none if the character is no symbol. -/
def stepChar (m : Automaton) (states : StateSet) (c : Char) : StateSet :=
  match m.alphabet.idOf? c with
  | some id => m.step states id
  | none => ∅

theorem step_congr {m : Automaton} {s t : StateSet} (h : s.toList = t.toList) (id : Nat) :
    m.step s id = m.step t id := by
  rw [step, step, targets, targets, h]

theorem stepChar_congr {m : Automaton} {s t : StateSet} (h : s.toList = t.toList) (c : Char) :
    m.stepChar s c = m.stepChar t c := by
  unfold stepChar
  cases m.alphabet.idOf? c with
  | some id => exact step_congr h id
  | none => rfl

theorem acceptsAny_congr {m : Automaton} {s t : StateSet} (h : s.toList = t.toList) :
    m.acceptsAny s = m.acceptsAny t := by
  rw [acceptsAny, acceptsAny, StateSet.intersects, StateSet.intersects, h]

/-- Nothing is reached from nowhere. -/
theorem toList_step_of_nil {m : Automaton} {s : StateSet} (h : s.toList = []) (id : Nat) :
    (m.step s id).toList = [] := by
  rw [step, targets, h]
  exact toList_closureFrom_nil m

theorem toList_stepChar_of_nil {m : Automaton} {s : StateSet} (h : s.toList = []) (c : Char) :
    (m.stepChar s c).toList = [] := by
  unfold stepChar
  cases m.alphabet.idOf? c with
  | some id => exact toList_step_of_nil h id
  | none => exact StateSet.toList_empty

/-! ## A word -/

/-- The states after a word, from the closure of the start on. -/
def statesAfter (m : Automaton) (word : List Char) : StateSet :=
  word.foldl m.stepChar m.startClosure

@[simp] theorem statesAfter_nil (m : Automaton) : m.statesAfter [] = m.startClosure := rfl

theorem statesAfter_append_singleton (m : Automaton) (word : List Char) (c : Char) :
    m.statesAfter (word ++ [c]) = m.stepChar (m.statesAfter word) c := by
  rw [statesAfter, List.foldl_append]
  rfl

/-- If every move from nowhere leads nowhere, so does every row of moves. -/
theorem toList_foldl_of_nil {α : Type} {move : StateSet → α → StateSet}
    (hmove : ∀ s a, s.toList = [] → (move s a).toList = []) (word : List α) {s : StateSet}
    (h : s.toList = []) : (word.foldl move s).toList = [] := by
  induction word generalizing s with
  | nil => exact h
  | cons a rest ih => exact ih (hmove s a h)

theorem acceptsAny_of_nil {m : Automaton} {s : StateSet} (h : s.toList = []) :
    m.acceptsAny s = false := by
  rw [acceptsAny, StateSet.intersects, h, List.any_nil]

/-- A character that is no symbol spoils every word that contains it. -/
theorem acceptsAny_statesAfter_of_not_mem {m : Automaton} {word : List Char} {c : Char}
    (hc : c ∈ word) (h : m.alphabet.idOf? c = none) :
    m.acceptsAny (m.statesAfter word) = false := by
  obtain ⟨u, v, rfl⟩ := List.append_of_mem hc
  have hdead : (m.stepChar (u.foldl m.stepChar m.startClosure) c).toList = [] := by
    simp [stepChar, h]
  rw [statesAfter, List.foldl_append, List.foldl_cons]
  exact acceptsAny_of_nil (toList_foldl_of_nil (fun _ c h => toList_stepChar_of_nil h c) v hdead)

/-- The answer is the same as if the row was read to its end. -/
theorem acceptsFrom_eq {m : Automaton} {step : StateSet → Nat → StateSet}
    (hstep : ∀ s id, s.toList = [] → (step s id).toList = []) (ids : List Nat) (s : StateSet) :
    m.acceptsFrom step s ids = m.acceptsAny (ids.foldl step s) := by
  induction ids generalizing s with
  | nil => rfl
  | cons id rest ih =>
    rw [acceptsFrom]
    split
    · next hempty =>
      have hdead : ((id :: rest).foldl step s).toList = [] :=
        toList_foldl_of_nil hstep _ (StateSet.isEmpty_iff.mp hempty)
      exact (acceptsAny_of_nil hdead).symm
    · exact ih (step s id)

theorem acceptsSymbols_eq (m : Automaton) (ids : List Nat) :
    m.acceptsSymbols ids = m.acceptsAny (ids.foldl m.step m.startClosure) :=
  acceptsFrom_eq (fun _ id h => toList_step_of_nil h id) ids m.startClosure

/-- Reading the numbers of a word is reading its characters, from any set of states. -/
theorem acceptsAny_foldl_step_eq (m : Automaton) (word : List Char) (s : StateSet) :
    (match word.mapM m.alphabet.idOf? with
      | some ids => m.acceptsAny (ids.foldl m.step s)
      | none => false) = m.acceptsAny (word.foldl m.stepChar s) := by
  induction word generalizing s with
  | nil => rfl
  | cons c rest ih =>
    rw [List.mapM_cons, List.foldl_cons]
    cases hc : m.alphabet.idOf? c with
    | none =>
      -- there are no numbers to read, and the characters read so far lead nowhere
      have hdead : (m.stepChar s c).toList = [] := by simp [stepChar, hc]
      rw [acceptsAny_of_nil (toList_foldl_of_nil (fun _ c h => toList_stepChar_of_nil h c) rest hdead)]
      rfl
    | some id =>
      have hstep : m.stepChar s c = m.step s id := by rw [stepChar, hc]
      rw [hstep, ← ih]
      cases rest.mapM m.alphabet.idOf? <;> rfl

/-- **A word is accepted if and only if it leads to an accepting state.** -/
theorem accepts_eq (m : Automaton) (word : String) :
    m.accepts word = m.acceptsAny (m.statesAfter word.toList) := by
  simp only [accepts, acceptsSymbols_eq]
  exact acceptsAny_foldl_step_eq m word.toList m.startClosure

/-- States after a word exist. -/
theorem lt_of_mem_statesAfter {m : Automaton} {word : List Char} {q : Nat}
    (h : q ∈ (m.statesAfter word).toList) : q < m.numStates := by
  rw [StateSet.mem_toList] at h
  rcases List.eq_nil_or_concat word with rfl | ⟨u, c, rfl⟩
  · exact lt_of_contains_closureFrom h
  · rw [List.concat_eq_append, statesAfter_append_singleton, stepChar] at h
    cases hc : m.alphabet.idOf? c with
    | some id => rw [hc] at h; exact lt_of_contains_closureFrom h
    | none => rw [hc] at h; simp at h

/-! ## One side of an equivalence check -/

/-- **A side of the search makes the steps of its automaton.** The table gives the number of the
character that stands at a place of the joint alphabet. -/
theorem toList_sideStep {m : Automaton} {alphabet : Alphabet} {place : Nat} {c : Char}
    (hc : alphabet.symbols[place]? = some c) (s : StateSet) :
    ((m.side alphabet).step s place).toList = (m.stepChar s c).toList := by
  have htable : (m.side alphabet).table.getD place none = m.alphabet.idOf? c := by
    simp [side, Alphabet.renumbering, hc]
  rw [Side.step, htable, stepChar]
  cases m.alphabet.idOf? c with
  | none => rfl
  | some id =>
    by_cases hs : s.isEmpty = true
    · simp only [hs, if_true]
      rw [toList_step_of_nil (StateSet.isEmpty_iff.mp hs), StateSet.toList_empty]
    · simp only [hs]
      rfl

end RegularLanguages.Automaton
