import RegularLanguages.Automaton.Basic

/-!
# What the edits do

An automaton is seen through its number of states, its start, its accepting states and the edges
that leave each state. This module says what each edit does to these views, so that constructions can be
reasoned about without looking at arrays.
-/

namespace RegularLanguages.Automaton

/-! ## Number of states -/

@[simp] theorem numStates_ofStart (a : Alphabet) : (ofStart a).numStates = 1 := rfl

@[simp] theorem numStates_addState (m : Automaton) : m.addState.numStates = m.numStates + 1 := by
  simp [numStates, addState]

@[simp] theorem numStates_addStates (m : Automaton) (n : Nat) :
    (m.addStates n).numStates = m.numStates + n := by
  induction n generalizing m with
  | zero => rfl
  | succ n ih =>
    rw [addStates, ih, numStates_addState]
    omega

@[simp] theorem numStates_setStart (m : Automaton) (q : Nat) :
    (m.setStart q).numStates = m.numStates := rfl

@[simp] theorem numStates_addTransition (m : Automaton) (q : Nat) (l : Label) (r : Nat) :
    (m.addTransition q l r).numStates = m.numStates := by
  simp [numStates, addTransition]

@[simp] theorem numStates_addEpsilons (m : Automaton) (qs : List Nat) (r : Nat) :
    (m.addEpsilons qs r).numStates = m.numStates := by
  induction qs generalizing m with
  | nil => rfl
  | cons q rest ih =>
    rw [addEpsilons, List.foldl_cons, ← addEpsilons, ih, numStates_addTransition]

@[simp] theorem numStates_addAccepting (m : Automaton) (q : Nat) :
    (m.addAccepting q).numStates = m.numStates := rfl

@[simp] theorem numStates_addAllAccepting (m : Automaton) (qs : List Nat) :
    (m.addAllAccepting qs).numStates = m.numStates := by
  induction qs generalizing m with
  | nil => rfl
  | cons q rest ih =>
    rw [addAllAccepting, List.foldl_cons, ← addAllAccepting, ih, numStates_addAccepting]

@[simp] theorem numStates_clearAccepting (m : Automaton) :
    m.clearAccepting.numStates = m.numStates := rfl

@[simp] theorem numStates_embed (m other : Automaton) :
    (m.embed other).numStates = m.numStates + other.numStates := by
  simp [numStates, embed]

/-! ## Alphabet and start -/

@[simp] theorem alphabet_addStates (m : Automaton) (n : Nat) :
    (m.addStates n).alphabet = m.alphabet := by
  induction n generalizing m with
  | zero => rfl
  | succ n ih => exact ih m.addState

@[simp] theorem alphabet_addEpsilons (m : Automaton) (qs : List Nat) (r : Nat) :
    (m.addEpsilons qs r).alphabet = m.alphabet := by
  induction qs generalizing m with
  | nil => rfl
  | cons q rest ih =>
    rw [addEpsilons, List.foldl_cons, ← addEpsilons, ih]
    rfl

@[simp] theorem start_addEpsilons (m : Automaton) (qs : List Nat) (r : Nat) :
    (m.addEpsilons qs r).start = m.start := by
  induction qs generalizing m with
  | nil => rfl
  | cons q rest ih =>
    rw [addEpsilons, List.foldl_cons, ← addEpsilons, ih]
    rfl

@[simp] theorem alphabet_addAllAccepting (m : Automaton) (qs : List Nat) :
    (m.addAllAccepting qs).alphabet = m.alphabet := by
  induction qs generalizing m with
  | nil => rfl
  | cons q rest ih =>
    rw [addAllAccepting, List.foldl_cons, ← addAllAccepting, ih]
    rfl

@[simp] theorem start_addAllAccepting (m : Automaton) (qs : List Nat) :
    (m.addAllAccepting qs).start = m.start := by
  induction qs generalizing m with
  | nil => rfl
  | cons q rest ih =>
    rw [addAllAccepting, List.foldl_cons, ← addAllAccepting, ih]
    rfl

/-! ## Accepting states -/

@[simp] theorem accepting_addStates (m : Automaton) (n : Nat) :
    (m.addStates n).accepting = m.accepting := by
  induction n generalizing m with
  | zero => rfl
  | succ n ih => exact ih m.addState

@[simp] theorem accepting_addEpsilons (m : Automaton) (qs : List Nat) (r : Nat) :
    (m.addEpsilons qs r).accepting = m.accepting := by
  induction qs generalizing m with
  | nil => rfl
  | cons q rest ih =>
    rw [addEpsilons, List.foldl_cons, ← addEpsilons, ih]
    rfl

/-- Making a row of states accepting adds them to the accepting set in that order. -/
@[simp] theorem accepting_addAllAccepting (m : Automaton) (qs : List Nat) :
    (m.addAllAccepting qs).accepting = m.accepting.insertAll qs := by
  induction qs generalizing m with
  | nil => rfl
  | cons q rest ih =>
    rw [addAllAccepting, List.foldl_cons, ← addAllAccepting, ih]
    rfl

/-! ## Edges -/

theorem mem_insertEdge {edges : List Edge} {e f : Edge} :
    e ∈ insertEdge edges f ↔ e ∈ edges ∨ e = f := by
  unfold insertEdge
  split
  · next h =>
    refine ⟨Or.inl, ?_⟩
    rintro (he | rfl)
    · exact he
    · exact h
  · simp

/-- A list without repetitions stays one. -/
theorem nodup_insertEdge {edges : List Edge} (e : Edge) (h : edges.Nodup) :
    (insertEdge edges e).Nodup := by
  unfold insertEdge
  split
  · exact h
  · next hne =>
    refine List.nodup_append.2 ⟨h, by simp, fun f hf g hg hfg => hne ?_⟩
    obtain rfl := List.mem_singleton.1 hg
    exact hfg ▸ hf

/-- A state that does not exist has no edges. -/
theorem edgesFrom_of_numStates_le {m : Automaton} {q : Nat} (h : m.numStates ≤ q) :
    m.edgesFrom q = [] := by
  rw [edgesFrom, Array.getD_eq_getD_getElem?, Array.getElem?_eq_none h]
  rfl

/-- A transition is added to the edges of its source; nothing happens if there is no such state. -/
theorem edgesFrom_addTransition (m : Automaton) (source : Nat) (l : Label) (r q : Nat) :
    (m.addTransition source l r).edgesFrom q =
      if source = q ∧ q < m.numStates then insertEdge (m.edgesFrom q) ⟨l, r⟩
      else m.edgesFrom q := by
  simp only [edgesFrom, addTransition, numStates, Array.getD_eq_getD_getElem?,
    Array.getElem?_modify]
  by_cases hs : source = q
  · by_cases hq : q < m.edges.size
    · simp [hs, hq]
    · simp [hs, hq]
  · simp [hs]

/-- Copied states keep their edges, moved up; the others keep theirs. -/
theorem edgesFrom_embed (m other : Automaton) (q : Nat) :
    (m.embed other).edgesFrom q =
      if q < m.numStates then m.edgesFrom q
      else (other.edgesFrom (q - m.numStates)).map (Edge.shift m.numStates) := by
  simp only [edgesFrom, embed, numStates, Array.getD_eq_getD_getElem?, Array.getElem?_append]
  split
  · rfl
  · rw [Array.getElem?_map]
    cases other.edges[q - m.edges.size]? <;> rfl

/-- The edges of a new automaton: none. -/
@[simp] theorem edgesFrom_ofStart (a : Alphabet) (q : Nat) : (ofStart a).edgesFrom q = [] := by
  cases q <;> rfl

@[simp] theorem edgesFrom_addState (m : Automaton) (q : Nat) :
    m.addState.edgesFrom q = m.edgesFrom q := by
  simp only [edgesFrom, addState, Array.getD_eq_getD_getElem?, Array.getElem?_push]
  split
  · next h =>
    subst h
    simp
  · rfl

@[simp] theorem edgesFrom_addStates (m : Automaton) (n q : Nat) :
    (m.addStates n).edgesFrom q = m.edgesFrom q := by
  induction n generalizing m with
  | zero => rfl
  | succ n ih => rw [addStates, ih, edgesFrom_addState]

/-! ## Transitions -/

/-- A transition is an edge of its source. -/
theorem mem_transitions {m : Automaton} {q r : Nat} {l : Label} :
    (q, l, r) ∈ m.transitions ↔ ⟨l, r⟩ ∈ m.edgesFrom q := by
  simp only [transitions, List.mem_flatMap, List.mem_range, List.mem_map, Prod.mk.injEq]
  constructor
  · rintro ⟨q', -, ⟨l', r'⟩, he, rfl, rfl, rfl⟩
    exact he
  · intro h
    refine ⟨q, ?_, ⟨l, r⟩, h, rfl, rfl, rfl⟩
    exact Decidable.byContradiction fun hq => by
      rw [edgesFrom_of_numStates_le (Nat.not_lt.1 hq)] at h
      cases h

end RegularLanguages.Automaton
