import RegularLanguages.Proofs.Automaton.Path

/-!
# Copies of an operand

The constructions copy their operands into one row of states and let ε moves lead out of the copies
of accepting states. `CopyAt` says that a part of the row is such a copy. It holds right after
`embed` and is kept by the edits that follow.

A path that enters a copy either ends in it or leaves it from an accepting state of the operand, by
an ε move to the one state that the copy leads to (`CopyAt.escape`). So a path through a
construction falls apart into paths of the operands.
-/

namespace RegularLanguages.Automaton

variable {α : Type} {m a : Automaton} {spell : Nat → Option α} {offset : Nat} {exit : Option Nat}

/-! ## Edges after an edit -/

theorem mem_edgesFrom_addEpsilons {sources : List Nat} {target q : Nat} {e : Edge} :
    e ∈ (m.addEpsilons sources target).edgesFrom q ↔
      e ∈ m.edgesFrom q ∨ q ∈ sources ∧ q < m.numStates ∧ e = ⟨.epsilon, target⟩ := by
  induction sources generalizing m with
  | nil => simp [addEpsilons]
  | cons p rest ih =>
    rw [addEpsilons, List.foldl_cons, ← addEpsilons, ih, numStates_addTransition,
      edgesFrom_addTransition, List.mem_cons]
    split
    · next h =>
      rw [mem_insertEdge]
      constructor
      · rintro ((he | he) | ⟨hr, hlt, he⟩)
        · exact Or.inl he
        · exact Or.inr ⟨Or.inl h.1.symm, h.2, he⟩
        · exact Or.inr ⟨Or.inr hr, hlt, he⟩
      · rintro (he | ⟨-, -, he⟩)
        · exact Or.inl (Or.inl he)
        · exact Or.inl (Or.inr he)
    · next h =>
      constructor
      · rintro (he | ⟨hr, hlt, he⟩)
        · exact Or.inl he
        · exact Or.inr ⟨Or.inr hr, hlt, he⟩
      · rintro (he | ⟨rfl | hr, hlt, he⟩)
        · exact Or.inl he
        · exact absurd ⟨rfl, hlt⟩ h
        · exact Or.inr ⟨hr, hlt, he⟩

/-- A state that is no source keeps its edges. -/
theorem edgesFrom_addEpsilons_of_not_mem {sources : List Nat} {q : Nat} (hq : q ∉ sources)
    (target : Nat) : (m.addEpsilons sources target).edgesFrom q = m.edgesFrom q := by
  induction sources generalizing m with
  | nil => rfl
  | cons p rest ih =>
    rw [List.mem_cons, not_or] at hq
    have hother : ¬ (p = q ∧ q < m.numStates) := fun h => hq.1 h.1.symm
    rw [addEpsilons, List.foldl_cons, ← addEpsilons, ih hq.2, edgesFrom_addTransition,
      if_neg hother]

@[simp] theorem edgesFrom_addAllAccepting (m : Automaton) (qs : List Nat) (q : Nat) :
    (m.addAllAccepting qs).edgesFrom q = m.edgesFrom q := by
  induction qs generalizing m with
  | nil => rfl
  | cons p rest ih =>
    rw [addAllAccepting, List.foldl_cons, ← addAllAccepting, ih]
    rfl

/-! ## Copies -/

/-- The states from `offset` on are a copy of `a`. They have the edges of `a`, and from the copies
of its accepting states an ε move leads to `exit`, if there is one. -/
structure CopyAt (m a : Automaton) (offset : Nat) (exit : Option Nat) : Prop where
  le : offset + a.numStates ≤ m.numStates
  mem_edges : ∀ q < a.numStates, ∀ e, e ∈ m.edgesFrom (q + offset) ↔
    (∃ f ∈ a.edgesFrom q, f.shift offset = e) ∨
      a.accepting.contains q = true ∧ ∃ r ∈ exit, e = ⟨.epsilon, r⟩

theorem copyAt_embed (m a : Automaton) : (m.embed a).CopyAt a m.numStates none where
  le := by rw [numStates_embed]
  mem_edges q _ e := by
    have hge : ¬ q + m.numStates < m.numStates := by omega
    rw [edgesFrom_embed, if_neg hge, Nat.add_sub_cancel, List.mem_map]
    simp

theorem copyAt_clearAccepting (a : Automaton) : a.clearAccepting.CopyAt a 0 none where
  le := by rw [numStates_clearAccepting, Nat.zero_add]
  mem_edges q _ e := by
    have hshift : ∀ f : Edge, f.shift 0 = f := fun _ => rfl
    simp only [Nat.add_zero, hshift, exists_eq_right, Option.not_mem_none, false_and, exists_const,
      and_false, or_false]
    rfl

namespace CopyAt

theorem embed (h : m.CopyAt a offset exit) (other : Automaton) :
    (m.embed other).CopyAt a offset exit where
  le := by
    rw [numStates_embed]
    exact Nat.le_add_right_of_le h.le
  mem_edges q hq e := by
    have hlt : q + offset < m.numStates := by
      have := h.le
      omega
    rw [edgesFrom_embed, if_pos hlt]
    exact h.mem_edges q hq e

theorem addState (h : m.CopyAt a offset exit) : m.addState.CopyAt a offset exit where
  le := by
    rw [numStates_addState]
    exact Nat.le_succ_of_le h.le
  mem_edges q hq e := by
    rw [edgesFrom_addState]
    exact h.mem_edges q hq e

theorem addAllAccepting (h : m.CopyAt a offset exit) (qs : List Nat) :
    (m.addAllAccepting qs).CopyAt a offset exit where
  le := by
    rw [numStates_addAllAccepting]
    exact h.le
  mem_edges q hq e := by
    rw [edgesFrom_addAllAccepting]
    exact h.mem_edges q hq e

/-- ε moves from other states do not touch a copy. -/
theorem addEpsilons (h : m.CopyAt a offset exit) (sources : List Nat) (target : Nat)
    (hout : ∀ q ∈ sources, q < offset ∨ offset + a.numStates ≤ q) :
    (m.addEpsilons sources target).CopyAt a offset exit where
  le := by
    rw [numStates_addEpsilons]
    exact h.le
  mem_edges q hq e := by
    have hnot : q + offset ∉ sources := by
      intro hmem
      have := hout _ hmem
      omega
    rw [edgesFrom_addEpsilons_of_not_mem hnot]
    exact h.mem_edges q hq e

/-- ε moves from the accepting states give a copy its exit. -/
theorem leadTo (h : m.CopyAt a offset none) (target : Nat) :
    (m.addEpsilons (a.accepting.toList.map (· + offset)) target).CopyAt a offset (some target) where
  le := by
    rw [numStates_addEpsilons]
    exact h.le
  mem_edges q hq e := by
    have hlt : q + offset < m.numStates := by
      have := h.le
      omega
    have hsource : q + offset ∈ a.accepting.toList.map (· + offset) ↔
        a.accepting.contains q = true := by
      simp
    rw [mem_edgesFrom_addEpsilons, h.mem_edges q hq, hsource]
    simp [hlt]

/-! ## Paths through a copy -/

theorem path (h : m.CopyAt a offset exit) (ha : a.WellFormed) {q r : Nat} {w : List α}
    (hq : q < a.numStates) (hpath : a.Path spell q w r) :
    m.Path spell (q + offset) w (r + offset) := by
  induction hpath with
  | refl => exact .refl _
  | epsilon hedge _ ih =>
    have hcopied := (h.mem_edges _ hq _).mpr (Or.inl ⟨_, hedge, rfl⟩)
    exact .epsilon hcopied (ih (ha.target_lt _ _ hedge))
  | symbol hedge hspell _ ih =>
    have hcopied := (h.mem_edges _ hq _).mpr (Or.inl ⟨_, hedge, rfl⟩)
    exact .symbol hcopied hspell (ih (ha.target_lt _ _ hedge))

/-- **A path that enters a copy ends there or leaves by the exit.** In the second case it has read
a word that leads the operand to an accepting state. -/
theorem escape (h : m.CopyAt a offset exit) (ha : a.WellFormed) {q s : Nat} {w : List α}
    (hq : q < a.numStates) (hpath : m.Path spell (q + offset) w s) :
    (∃ r < a.numStates, s = r + offset ∧ a.Path spell q w r) ∨
      ∃ r t u v, a.accepting.contains r = true ∧ t ∈ exit ∧ w = u ++ v ∧
        a.Path spell q u r ∧ m.Path spell t v s := by
  -- the induction is over paths from any state, so the state may not be a sum
  generalize hp : q + offset = p at hpath
  induction hpath generalizing q with
  | refl => exact Or.inl ⟨q, hq, hp.symm, .refl q⟩
  | epsilon hedge hrest ih =>
    subst hp
    rcases (h.mem_edges q hq _).mp hedge with ⟨⟨label, t⟩, hf, hshift⟩ | ⟨hacc, t, ht, heq⟩
    · obtain ⟨rfl, rfl⟩ := Edge.mk.inj hshift
      rcases ih (ha.target_lt _ _ hf) rfl with ⟨r, hr, rfl, hin⟩ | ⟨r, t', u, v, hr, ht', rfl, hu, hv⟩
      · exact Or.inl ⟨r, hr, rfl, .epsilon hf hin⟩
      · exact Or.inr ⟨r, t', u, v, hr, ht', rfl, .epsilon hf hu, hv⟩
    · obtain ⟨-, rfl⟩ := Edge.mk.inj heq
      exact Or.inr ⟨q, _, [], _, hacc, ht, rfl, .refl q, hrest⟩
  | symbol hedge hspell hrest ih =>
    subst hp
    rcases (h.mem_edges q hq _).mp hedge with ⟨⟨label, t⟩, hf, hshift⟩ | ⟨-, t, -, heq⟩
    · obtain ⟨rfl, rfl⟩ := Edge.mk.inj hshift
      rcases ih (ha.target_lt _ _ hf) rfl with ⟨r, hr, rfl, hin⟩ | ⟨r, t', u, v, hr, ht', rfl, hu, hv⟩
      · exact Or.inl ⟨r, hr, rfl, .symbol hf hspell hin⟩
      · exact Or.inr ⟨r, t', _ :: u, v, hr, ht', rfl, .symbol hf hspell hu, hv⟩
    · cases (Edge.mk.inj heq).1

/-- A word of the operand leads through its copy to the exit. -/
theorem path_to_exit {t : Nat} (h : m.CopyAt a offset (some t)) (ha : a.WellFormed) {w : List α}
    (hw : w ∈ a.language spell) : m.Path spell (a.start + offset) w t := by
  obtain ⟨r, hr, hpath⟩ := mem_language.mp hw
  have hedge := (h.mem_edges r (ha.accepting_lt r hr) _).mpr (Or.inr ⟨hr, t, rfl, rfl⟩)
  have hlast : m.Path spell (r + offset) [] t := .epsilon hedge (.refl t)
  have hwhole := (h.path ha ha.start_lt hpath).append hlast
  rwa [List.append_nil] at hwhole

/-- A path through a copy to a state behind it starts with a word of the operand. -/
theorem escape_to {t s : Nat} (h : m.CopyAt a offset (some t)) (ha : a.WellFormed) {w : List α}
    (hs : s < offset ∨ offset + a.numStates ≤ s)
    (hpath : m.Path spell (a.start + offset) w s) :
    ∃ u v, w = u ++ v ∧ u ∈ a.language spell ∧ m.Path spell t v s := by
  rcases h.escape ha ha.start_lt hpath with ⟨r, hr, rfl, -⟩ | ⟨r, t', u, v, hr, ht, rfl, hu, hv⟩
  · omega
  · obtain rfl := Option.some.inj ht
    exact ⟨u, v, rfl, ⟨r, hr, hu⟩, hv⟩

/-- A path stays in a copy without an exit. -/
theorem path_within (h : m.CopyAt a offset none) (ha : a.WellFormed) {w : List α} {s : Nat}
    (hpath : m.Path spell (a.start + offset) w s) :
    ∃ r < a.numStates, s = r + offset ∧ a.Path spell a.start w r := by
  rcases h.escape ha ha.start_lt hpath with hin | ⟨_, t, _, _, _, ht, _⟩
  · exact hin
  · cases ht

end CopyAt

end RegularLanguages.Automaton
