import Mathlib.Data.List.Nodup
import RegularLanguages.Automaton.Algebra
import RegularLanguages.Automaton.Lemmas

/-!
# Well-formed automata

Every number in a well-formed automaton refers to something: a state below the number of states, or
a symbol of the alphabet. The edits keep this as long as they are given such numbers. The
constructions of the algebra are compositions of edits, so they keep it too; this is proved edit by
edit, along the composition.
-/

namespace RegularLanguages

/-- The symbol of a label is in the alphabet. -/
def Label.Known (alphabet : Alphabet) : Label → Prop
  | .epsilon => True
  | .symbol id => id < alphabet.size

theorem Edge.shift_injective (offset : Nat) : Function.Injective (Edge.shift offset) := by
  intro e f h
  simp only [Edge.shift, Edge.mk.injEq, Nat.add_right_cancel_iff] at h
  cases e
  cases f
  simp_all

namespace Automaton

/-- The start, the accepting states and the targets of edges are states, the labels of edges are
known, and no state has an edge twice. -/
structure WellFormed (m : Automaton) : Prop where
  start_lt : m.start < m.numStates
  accepting_lt : ∀ q, m.accepting.contains q = true → q < m.numStates
  target_lt : ∀ q e, e ∈ m.edgesFrom q → e.target < m.numStates
  label_known : ∀ q e, e ∈ m.edgesFrom q → Label.Known m.alphabet e.label
  edges_nodup : ∀ q, (m.edgesFrom q).Nodup

variable {m other : Automaton}

/-! ## Edits -/

theorem wellFormed_ofStart (alphabet : Alphabet) : (ofStart alphabet).WellFormed where
  start_lt := Nat.zero_lt_one
  accepting_lt q h := by simp [ofStart] at h
  target_lt q e h := by simp at h
  label_known q e h := by simp at h
  edges_nodup q := by simp

namespace WellFormed

theorem addState (h : m.WellFormed) : m.addState.WellFormed where
  start_lt := by
    have := h.start_lt
    rw [numStates_addState]
    exact Nat.lt_succ_of_lt this
  accepting_lt q hq := by
    rw [numStates_addState]
    exact Nat.lt_succ_of_lt (h.accepting_lt q hq)
  target_lt q e he := by
    rw [edgesFrom_addState] at he
    rw [numStates_addState]
    exact Nat.lt_succ_of_lt (h.target_lt q e he)
  label_known q e he := by
    rw [edgesFrom_addState] at he
    exact h.label_known q e he
  edges_nodup q := by
    rw [edgesFrom_addState]
    exact h.edges_nodup q

theorem addTransition (h : m.WellFormed) (source : Nat) {target : Nat} {label : Label}
    (ht : target < m.numStates) (hl : Label.Known m.alphabet label) :
    (m.addTransition source label target).WellFormed := by
  have hmem : ∀ q e, e ∈ (m.addTransition source label target).edgesFrom q →
      e ∈ m.edgesFrom q ∨ e = ⟨label, target⟩ := by
    intro q e he
    rw [edgesFrom_addTransition] at he
    split at he
    · exact mem_insertEdge.mp he
    · exact Or.inl he
  refine ⟨?_, ?_, fun q e he => ?_, fun q e he => ?_, fun q => ?_⟩
  · rw [numStates_addTransition]
    exact h.start_lt
  · rw [numStates_addTransition]
    exact h.accepting_lt
  · rw [numStates_addTransition]
    rcases hmem q e he with he | rfl
    · exact h.target_lt q e he
    · exact ht
  · rcases hmem q e he with he | rfl
    · exact h.label_known q e he
    · exact hl
  · rw [edgesFrom_addTransition]
    split
    · exact nodup_insertEdge _ (h.edges_nodup q)
    · exact h.edges_nodup q

theorem addEpsilons (h : m.WellFormed) (sources : List Nat) {target : Nat}
    (ht : target < m.numStates) : (m.addEpsilons sources target).WellFormed := by
  induction sources generalizing m with
  | nil => exact h
  | cons q rest ih =>
    exact ih (h.addTransition q ht trivial) (by rw [numStates_addTransition]; exact ht)

theorem addAccepting (h : m.WellFormed) {q : Nat} (hq : q < m.numStates) :
    (m.addAccepting q).WellFormed where
  start_lt := h.start_lt
  accepting_lt := StateSet.forall_contains_insert.mpr ⟨hq, h.accepting_lt⟩
  target_lt := h.target_lt
  label_known := h.label_known
  edges_nodup := h.edges_nodup

theorem addAllAccepting (h : m.WellFormed) {qs : List Nat} (hqs : ∀ q ∈ qs, q < m.numStates) :
    (m.addAllAccepting qs).WellFormed := by
  induction qs generalizing m with
  | nil => exact h
  | cons q rest ih =>
    exact ih (h.addAccepting (hqs q List.mem_cons_self))
      fun r hr => hqs r (List.mem_cons_of_mem _ hr)

theorem clearAccepting (h : m.WellFormed) : m.clearAccepting.WellFormed where
  start_lt := h.start_lt
  accepting_lt q hq := by simp [Automaton.clearAccepting] at hq
  target_lt := h.target_lt
  label_known := h.label_known
  edges_nodup := h.edges_nodup

theorem embed (h : m.WellFormed) (ho : other.WellFormed) (ha : other.alphabet = m.alphabet) :
    (m.embed other).WellFormed := by
  have hmem : ∀ q e, e ∈ (m.embed other).edgesFrom q → e ∈ m.edgesFrom q ∨
      ∃ f ∈ other.edgesFrom (q - m.numStates), f.shift m.numStates = e := by
    intro q e he
    rw [edgesFrom_embed] at he
    split at he
    · exact Or.inl he
    · exact Or.inr (List.mem_map.mp he)
  refine ⟨?_, fun q hq => ?_, fun q e he => ?_, fun q e he => ?_, fun q => ?_⟩
  · rw [numStates_embed]
    exact Nat.lt_add_right _ h.start_lt
  · rw [numStates_embed]
    exact Nat.lt_add_right _ (h.accepting_lt q hq)
  · rw [numStates_embed]
    rcases hmem q e he with he | ⟨f, hf, rfl⟩
    · exact Nat.lt_add_right _ (h.target_lt q e he)
    · have := ho.target_lt _ f hf
      simp only [Edge.shift]
      omega
  · rcases hmem q e he with he | ⟨f, hf, rfl⟩
    · exact h.label_known q e he
    · have := ho.label_known _ f hf
      rw [ha] at this
      exact this
  · rw [edgesFrom_embed]
    split
    · exact h.edges_nodup q
    · exact (ho.edges_nodup _).map (Edge.shift_injective _)

/-! ## The algebra -/

theorem emptyWord (alphabet : Alphabet) : (Automaton.emptyWord alphabet).WellFormed :=
  (wellFormed_ofStart alphabet).addAccepting Nat.zero_lt_one

theorem singleEdge {alphabet : Alphabet} {id : Nat} (h : id < alphabet.size) :
    (Automaton.singleEdge alphabet id).WellFormed := by
  have hbase := (wellFormed_ofStart alphabet).addState
  have hedge : (((ofStart alphabet).addState).addTransition 0 (.symbol id) 1).WellFormed :=
    hbase.addTransition 0 Nat.one_lt_two h
  exact hedge.addAccepting Nat.one_lt_two

variable {l r : Automaton}

theorem unionAligned (hl : l.WellFormed) (hr : r.WellFormed) (ha : r.alphabet = l.alphabet) :
    (unionAligned l r).WellFormed := by
  have hls := hl.start_lt
  have hrs := hr.start_lt
  have hstates := (((wellFormed_ofStart l.alphabet).embed hl rfl).embed hr ha).addState
  have hto_l := hstates.addEpsilons [0] (show l.start + 1 < _ by
    simp only [numStates_addState, numStates_embed, numStates_ofStart]
    omega)
  have hto_r := hto_l.addEpsilons [0] (show r.start + (1 + l.numStates) < _ by
    simp only [numStates_addEpsilons, numStates_addState, numStates_embed, numStates_ofStart]
    omega)
  have hfrom_l := hto_r.addEpsilons (l.accepting.toList.map (· + 1))
    (show 1 + l.numStates + r.numStates < _ by simp)
  have hfrom_r := hfrom_l.addEpsilons (r.accepting.toList.map (· + (1 + l.numStates)))
    (show 1 + l.numStates + r.numStates < _ by simp)
  exact hfrom_r.addAccepting (by simp)

theorem concatAligned (hl : l.WellFormed) (hr : r.WellFormed) (ha : r.alphabet = l.alphabet) :
    (concatAligned l r).WellFormed := by
  have hrs := hr.start_lt
  have hstates := hl.clearAccepting.embed hr ha
  have hjoined := hstates.addEpsilons l.accepting.toList (show r.start + l.numStates < _ by
    rw [numStates_embed, numStates_clearAccepting]
    omega)
  refine hjoined.addAllAccepting fun q hq => ?_
  obtain ⟨p, hp, rfl⟩ := List.mem_map.mp hq
  have := hr.accepting_lt p (StateSet.mem_toList.mp hp)
  rw [numStates_addEpsilons, numStates_embed, numStates_clearAccepting]
  omega

theorem star (h : m.WellFormed) : m.star.WellFormed := by
  have hs := h.start_lt
  have hstates := (wellFormed_ofStart m.alphabet).embed h rfl
  have hinto := hstates.addEpsilons [0] (show m.start + 1 < _ by
    rw [numStates_embed, numStates_ofStart]
    omega)
  have hback := hinto.addEpsilons (m.accepting.toList.map (· + 1)) (show 0 < _ by
    rw [numStates_addEpsilons, numStates_embed, numStates_ofStart]
    omega)
  exact hback.addAccepting
    (by simp only [numStates_addEpsilons, numStates_embed, numStates_ofStart]; omega)

end WellFormed

end Automaton

end RegularLanguages
