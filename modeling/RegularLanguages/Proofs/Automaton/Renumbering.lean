import RegularLanguages.Proofs.Automaton.Lift
import RegularLanguages.Proofs.Automaton.Power

/-!
# Constructing and renumbering commute

To build an automaton over one alphabet and then to take it to another one is the same as to build it
over the other alphabet at once: the same states, and the same edges in the same order. `renumber`
takes an automaton to the other alphabet without a look at its own. So it commutes with every edit,
and the constructions are compositions of edits.

An edit that adds an edge asks first whether the edge is there. Renumbering does not change the answer,
since different labels stay different (`eq_of_renumberLabel`).
-/

namespace RegularLanguages.Automaton

variable {A S : Alphabet} {m : Automaton}

/-- The automaton with the numbers of one alphabet replaced by those of another. -/
def renumber (A S : Alphabet) (m : Automaton) : Automaton :=
  { m with
    alphabet := S
    edges := m.edges.map fun edges => edges.filterMap (renumberEdge (A.renumbering S)) }

theorem relabel_of_ne (h : S ≠ m.alphabet) : m.relabel S = m.renumber m.alphabet S := if_neg h

@[simp] theorem numStates_renumber (m : Automaton) : (m.renumber A S).numStates = m.numStates := by
  simp [numStates, renumber]

/-! ## Edits -/

theorem renumber_ofStart (alphabet : Alphabet) : (ofStart alphabet).renumber A S = ofStart S := by
  simp [renumber, ofStart]

theorem renumber_addState (m : Automaton) :
    m.addState.renumber A S = (m.renumber A S).addState := by
  simp [renumber, addState]

theorem filterMap_insertEdge {edges : List Edge} {e f : Edge}
    (h : renumberEdge (A.renumbering S) e = some f) :
    (insertEdge edges e).filterMap (renumberEdge (A.renumbering S)) =
      insertEdge (edges.filterMap (renumberEdge (A.renumbering S))) f := by
  have hmem : f ∈ edges.filterMap (renumberEdge (A.renumbering S)) ↔ e ∈ edges := by
    rw [List.mem_filterMap]
    refine ⟨?_, fun he => ⟨e, he, h⟩⟩
    rintro ⟨d, hd, hdf⟩
    exact eq_of_renumberEdge hdf h ▸ hd
  unfold insertEdge
  by_cases he : e ∈ edges
  · rw [if_pos he, if_pos (hmem.mpr he)]
  · rw [if_neg he, if_neg (mt hmem.mp he), List.filterMap_append]
    simp [h]

theorem renumber_addTransition (m : Automaton) (q r : Nat) {l l' : Label}
    (h : renumberLabel (A.renumbering S) l = some l') :
    (m.addTransition q l r).renumber A S = (m.renumber A S).addTransition q l' r := by
  have hedge : renumberEdge (A.renumbering S) ⟨l, r⟩ = some ⟨l', r⟩ := mem_renumberEdge.mpr ⟨h, rfl⟩
  simp only [renumber, addTransition, mk.injEq, true_and]
  refine Array.ext_getElem? fun i => ?_
  simp only [Array.getElem?_map, Array.getElem?_modify]
  split
  · cases m.edges[i]? with
    | none => rfl
    | some edges => exact congrArg some (filterMap_insertEdge hedge)
  · rfl

theorem renumber_addEpsilons (m : Automaton) (qs : List Nat) (r : Nat) :
    (m.addEpsilons qs r).renumber A S = (m.renumber A S).addEpsilons qs r := by
  induction qs generalizing m with
  | nil => rfl
  | cons q rest ih =>
    rw [addEpsilons, List.foldl_cons, ← addEpsilons, ih, renumber_addTransition _ _ _ rfl]
    rfl

theorem renumber_addAccepting (m : Automaton) (q : Nat) :
    (m.addAccepting q).renumber A S = (m.renumber A S).addAccepting q := rfl

theorem renumber_addAllAccepting (m : Automaton) (qs : List Nat) :
    (m.addAllAccepting qs).renumber A S = (m.renumber A S).addAllAccepting qs := by
  induction qs generalizing m with
  | nil => rfl
  | cons q rest ih => exact ih (m.addAccepting q)

theorem renumber_clearAccepting (m : Automaton) :
    m.clearAccepting.renumber A S = (m.renumber A S).clearAccepting := rfl

theorem renumberEdge_shift (table : Array (Option Nat)) (offset : Nat) (e : Edge) :
    renumberEdge table (e.shift offset) = (renumberEdge table e).map (Edge.shift offset) := by
  simp only [renumberEdge, Edge.shift, Option.map_map]
  rfl

theorem renumber_embed (m other : Automaton) :
    (m.embed other).renumber A S = (m.renumber A S).embed (other.renumber A S) := by
  have hsize : (m.renumber A S).numStates = m.numStates := numStates_renumber m
  simp only [renumber, embed, mk.injEq, true_and] at hsize ⊢
  rw [hsize, Array.map_append, Array.map_map, Array.map_map]
  congr 2
  funext edges
  simp only [Function.comp_apply, List.filterMap_map, List.map_filterMap, renumberEdge_shift]

/-! ## Alphabets of constructions -/

theorem alphabet_union {l r : Automaton} (h : l.alphabet = r.alphabet) :
    (l.union r).alphabet = l.alphabet := by
  rw [union, align_of_alphabet_eq h, alphabet_unionAligned]

theorem alphabet_concat {l r : Automaton} (h : l.alphabet = r.alphabet) :
    (l.concat r).alphabet = l.alphabet := by
  rw [concat, align_of_alphabet_eq h, alphabet_concatAligned]

theorem alphabet_plus (a : Automaton) : a.plus.alphabet = a.alphabet :=
  alphabet_concat (alphabet_star a).symm

theorem alphabet_optional (a : Automaton) : a.optional.alphabet = a.alphabet := alphabet_union rfl

theorem Layout.alphabet_appendCopies (a : Automaton) (n : Nat) (layout : Layout) :
    (layout.appendCopies a n).body.alphabet = layout.body.alphabet := by
  induction n generalizing layout with
  | zero => rfl
  | succ n ih =>
    rw [appendCopies, ih, append, alphabet_addEpsilons]
    rfl

theorem alphabet_power (a : Automaton) (n : Nat) : (a.power n).alphabet = a.alphabet := by
  cases n with
  | zero => rfl
  | succ n =>
    rw [power, Layout.close, alphabet_addAllAccepting, Layout.alphabet_appendCopies]
    rfl

/-! ## Constructions -/

theorem renumber_emptyWord (alphabet : Alphabet) :
    (emptyWord alphabet).renumber A S = emptyWord S := by
  rw [emptyWord, renumber_addAccepting, renumber_ofStart, ← emptyWord]

/-- An edge for a character becomes the edge for the same character. -/
theorem renumber_singleEdge {alphabet : Alphabet} {i j : Nat} {c : Char}
    (hi : A.symbol? i = some c) (hj : S.symbol? j = some c) :
    (singleEdge alphabet i).renumber A S = singleEdge S j := by
  have hlabel : renumberLabel (A.renumbering S) (.symbol i) = some (.symbol j) := by
    rw [renumberLabel, getD_renumbering.mpr ⟨c, hi, hj⟩]
    rfl
  rw [singleEdge, renumber_addAccepting, renumber_addTransition _ _ _ hlabel, renumber_addState,
    renumber_ofStart, ← singleEdge]

theorem renumber_unionAligned (l r : Automaton) :
    (l.unionAligned r).renumber A S = (l.renumber A S).unionAligned (r.renumber A S) := by
  simp only [unionAligned, renumber_addAccepting, renumber_addEpsilons, renumber_addState,
    renumber_embed, renumber_ofStart, numStates_renumber]
  rfl

theorem renumber_concatAligned (l r : Automaton) :
    (l.concatAligned r).renumber A S = (l.renumber A S).concatAligned (r.renumber A S) := by
  simp only [concatAligned, renumber_addAllAccepting, renumber_addEpsilons, renumber_embed,
    renumber_clearAccepting, numStates_renumber]
  rfl

theorem align_renumber (l r : Automaton) :
    align (l.renumber A S) (r.renumber A S) = (l.renumber A S, r.renumber A S) := if_pos rfl

theorem renumber_union {l r : Automaton} (h : l.alphabet = r.alphabet) :
    (l.union r).renumber A S = (l.renumber A S).union (r.renumber A S) := by
  rw [union, union, align_of_alphabet_eq h, align_renumber, renumber_unionAligned]

theorem renumber_concat {l r : Automaton} (h : l.alphabet = r.alphabet) :
    (l.concat r).renumber A S = (l.renumber A S).concat (r.renumber A S) := by
  rw [concat, concat, align_of_alphabet_eq h, align_renumber, renumber_concatAligned]

theorem renumber_star (a : Automaton) : a.star.renumber A S = (a.renumber A S).star := by
  simp only [star, renumber_addAccepting, renumber_addEpsilons, renumber_embed, renumber_ofStart]
  rfl

theorem renumber_plus (a : Automaton) : a.plus.renumber A S = (a.renumber A S).plus := by
  rw [plus, renumber_concat (alphabet_star a).symm, renumber_star, ← plus]

theorem renumber_optional (a : Automaton) :
    a.optional.renumber A S = (a.renumber A S).optional := by
  have halphabet : a.alphabet = (emptyWord a.alphabet).alphabet := rfl
  rw [optional, renumber_union halphabet, renumber_emptyWord]
  rfl

/-- The layout over the other alphabet. -/
def Layout.renumber (A S : Alphabet) (layout : Layout) : Layout :=
  ⟨layout.body.renumber A S, layout.ends⟩

theorem Layout.renumber_append (a : Automaton) (layout : Layout) :
    (layout.append a).renumber A S = (layout.renumber A S).append (a.renumber A S) := by
  simp only [Layout.renumber, append, renumber_addEpsilons, renumber_embed, numStates_renumber]
  rfl

theorem Layout.renumber_appendCopies (a : Automaton) (n : Nat) (layout : Layout) :
    (layout.appendCopies a n).renumber A S =
      (layout.renumber A S).appendCopies (a.renumber A S) n := by
  induction n generalizing layout with
  | zero => rfl
  | succ n ih => rw [appendCopies, ih, renumber_append, ← appendCopies]

theorem renumber_power (a : Automaton) (n : Nat) :
    (a.power n).renumber A S = (a.renumber A S).power n := by
  cases n with
  | zero => exact renumber_emptyWord a.alphabet
  | succ n =>
    rw [power, power, Layout.close, Layout.close, renumber_addAllAccepting]
    exact congrArg Layout.close
      (Layout.renumber_appendCopies a n ⟨a.clearAccepting, a.accepting.toList⟩)

end RegularLanguages.Automaton
