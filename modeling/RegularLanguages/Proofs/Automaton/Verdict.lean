import Mathlib.Data.Finset.Prod
import RegularLanguages.Proofs.Automaton.PairSearch

/-!
# Verdicts are right

The invariant of the search holds at the start and survives every move, so it holds when the search
ends. It ends for one of three reasons: two automata differ on a new pair, no node is left, or the
bound on the number of pairs is reached. The last never happens while nodes are left, because the
pairs of the nodes are distinct (`Explored.size_le_pairBound`).
-/

namespace RegularLanguages.Automaton

variable {a b : Automaton} {s : Search} {tried : List (Char × Nat)}

/-! ## How many pairs there are -/

/-- The pairs of sets, as sets of states that exist. -/
def memberPairs (a b : Automaton) : Finset (Finset Nat × Finset Nat) :=
  (Finset.range a.numStates).powerset ×ˢ (Finset.range b.numStates).powerset

theorem card_memberPairs (a b : Automaton) :
    (memberPairs a b).card = (pairing a b).pairBound := by
  rw [memberPairs, Finset.card_product, Finset.card_powerset, Finset.card_powerset,
    Finset.card_range, Finset.card_range, ← Nat.pow_add]
  rfl

/-- **There are no more pairs of sets of states than the bound** if sets with the same members count
as one. -/
theorem le_pairBound_of_distinct {n : Nat} (left right : Nat → StateSet)
    (hleft : ∀ i < n, ∀ q, (left i).contains q = true → q < a.numStates)
    (hright : ∀ i < n, ∀ q, (right i).contains q = true → q < b.numStates)
    (hdistinct : ∀ i < n, ∀ j < n, (left i).toList = (left j).toList →
      (right i).toList = (right j).toList → i = j) :
    n ≤ (pairing a b).pairBound := by
  rw [← card_memberPairs, ← Finset.card_range n]
  refine Finset.card_le_card_of_injOn
    (fun i => ((left i).toList.toFinset, (right i).toList.toFinset)) ?_ ?_
  · intro i hi
    have hi : i < n := by simpa using hi
    rw [Finset.mem_coe, memberPairs, Finset.mem_product, Finset.mem_powerset, Finset.mem_powerset]
    constructor
    · intro q hq
      exact Finset.mem_range.mpr
        (hleft i hi q (StateSet.mem_toList.mp (List.mem_toFinset.mp hq)))
    · intro q hq
      exact Finset.mem_range.mpr
        (hright i hi q (StateSet.mem_toList.mp (List.mem_toFinset.mp hq)))
  · intro i hi j hj heq
    obtain ⟨hl, hr⟩ := Prod.mk.inj heq
    exact hdistinct i (by simpa using hi) j (by simpa using hj)
      (StateSet.toList_eq_of_toFinset hl) (StateSet.toList_eq_of_toFinset hr)

namespace Explored

theorem joint_wordAt (h : Explored a b tried s) {i : Nat} (hi : i < s.nodes.size) :
    Joint a b (wordAt s.nodes i) := by
  induction i using Nat.strongRecOn with
  | ind i ih =>
    rcases Nat.eq_zero_or_pos i with rfl | hpos
    · rw [h.root]
      intro c hc
      cases hc
    · obtain ⟨j, c, place, hji, hword, hmem, -⟩ := h.link i hpos hi
      rw [hword]
      intro d hd
      rcases List.mem_append.mp hd with hd | hd
      · exact ih j hji (Nat.lt_trans hji hi) d hd
      · rw [List.mem_singleton.mp hd]
        exact ⟨place, hmem⟩

/-- No pair is recorded under two nodes: the later one would have the smaller word of the earlier
one. -/
theorem keyAfter_injective (h : Explored a b tried s) {i j : Nat} (hi : i < s.nodes.size)
    (hj : j < s.nodes.size)
    (hkey : keyAfter a b (wordAt s.nodes i) = keyAfter a b (wordAt s.nodes j)) : i = j := by
  rcases Nat.lt_trichotomy i j with hij | hij | hij
  · exact absurd (h.increasing i j hij hj) (h.least j hj _ (h.joint_wordAt hi) hkey)
  · exact hij
  · exact absurd (h.increasing j i hij hi) (h.least i hi _ (h.joint_wordAt hj) hkey.symm)

theorem size_le_pairBound (h : Explored a b tried s) :
    s.nodes.size ≤ (pairing a b).pairBound := by
  refine le_pairBound_of_distinct (fun i => a.statesAfter (wordAt s.nodes i))
    (fun i => b.statesAfter (wordAt s.nodes i)) ?_ ?_ ?_
  · intro i _ q hq
    exact lt_of_mem_statesAfter (StateSet.mem_toList.mpr hq)
  · intro i _ q hq
    exact lt_of_mem_statesAfter (StateSet.mem_toList.mpr hq)
  · intro i hi j hj hl hr
    exact h.keyAfter_injective hi hj (Prod.ext hl hr)

/-- When every symbol was tried on every node, every word leads to a recorded pair. -/
theorem seen_of_complete (h : Explored a b tried s) (hp : s.pending = [])
    (hlast : s.nodes.size ≤ s.current + 1) {u : List Char} (hu : Joint a b u) :
    s.seen.contains (keyAfter a b u) = true := by
  induction u using List.reverseRecOn with
  | nil => exact h.seen_nil
  | append_singleton u c ih =>
    obtain ⟨i, hi, hkey⟩ := h.seen_iff.mp (ih fun x hx => hu x (List.mem_append_left _ hx))
    obtain ⟨place, hc⟩ := hu c (by simp)
    refine h.seen_append hkey hc ?_
    rcases Nat.lt_or_eq_of_le (Nat.le_of_lt_succ (Nat.lt_of_lt_of_le hi hlast)) with hlt | heq
    · exact Or.inl hlt
    · refine Or.inr ⟨heq, ?_⟩
      rw [h.symbols, hp, List.append_nil] at hc
      exact hc

end Explored

/-! ## Verdicts -/

/-- What a verdict says: the automata agree on every word, or the word is the first one on which
they differ. -/
def Answers (a b : Automaton) : Verdict → Prop
  | .equal => ∀ u, Agree a b u
  | .counterexample w =>
    ¬ Agree a b w.toList ∧ ∀ u, List.Shortlex (· < ·) u w.toList → Agree a b u

theorem move_of_nil (p : Pairing) (hp : s.pending = []) :
    p.move s =
      if s.current + 1 < s.nodes.size ∧ s.current + 1 < p.pairBound then
        .ok ⟨s.nodes, s.seen, s.current + 1, p.symbols⟩
      else .error .equal := by
  obtain ⟨nodes, seen, current, pending⟩ := s
  obtain rfl : pending = [] := hp
  rfl

theorem move_of_cons (p : Pairing) {c : Char} {place : Nat} {rest : List (Char × Nat)} {node : Node}
    (hp : s.pending = (c, place) :: rest) (hget : s.nodes[s.current]? = some node) :
    p.move s =
      let next := p.child s.current node c place
      if s.seen.contains next.key then .ok ⟨s.nodes, s.seen, s.current, rest⟩
      else if p.disagrees next then
        .error (.counterexample (wordTo (s.nodes.push next) s.nodes.size))
      else .ok ⟨s.nodes.push next, s.seen.insert next.key, s.current, rest⟩ := by
  obtain ⟨nodes, seen, current, pending⟩ := s
  obtain rfl : pending = (c, place) :: rest := hp
  simp only [Pairing.move]
  rw [hget]

/-- What a move can do if it does not end the search: it goes on to the next node, passes over a
recorded pair, or records a new one. -/
inductive Pairing.Moved (p : Pairing) (s : Search) : Search → Prop
  | advance (hp : s.pending = []) (hlt : s.current + 1 < s.nodes.size) :
      Moved p s ⟨s.nodes, s.seen, s.current + 1, p.symbols⟩
  | skip {c : Char} {place : Nat} {rest : List (Char × Nat)} {node : Node}
      (hp : s.pending = (c, place) :: rest) (hnode : s.nodes[s.current]? = some node)
      (hseen : s.seen.contains (p.child s.current node c place).key = true) :
      Moved p s ⟨s.nodes, s.seen, s.current, rest⟩
  | record {c : Char} {place : Nat} {rest : List (Char × Nat)} {node : Node}
      (hp : s.pending = (c, place) :: rest) (hnode : s.nodes[s.current]? = some node)
      (hnew : ¬ s.seen.contains (p.child s.current node c place).key = true)
      (hagrees : p.disagrees (p.child s.current node c place) = false) :
      Moved p s ⟨s.nodes.push (p.child s.current node c place),
        s.seen.insert (p.child s.current node c place).key, s.current, rest⟩

theorem Pairing.moved_of_move {p : Pairing} {t : Search} (h : p.move s = .ok t) :
    p.Moved s t := by
  cases hp : s.pending with
  | nil =>
    rw [move_of_nil _ hp] at h
    split at h
    · next hlt =>
      obtain rfl := Except.ok.inj h
      exact .advance hp hlt.1
    · cases h
  | cons symbol rest =>
    obtain ⟨c, place⟩ := symbol
    cases hnode : s.nodes[s.current]? with
    | none =>
      obtain ⟨nodes, seen, current, pending⟩ := s
      obtain rfl : pending = (c, place) :: rest := hp
      simp only [move] at h
      rw [hnode] at h
      cases h
    | some node =>
      rw [move_of_cons _ hp hnode] at h
      dsimp only at h
      by_cases hseen : s.seen.contains (p.child s.current node c place).key = true
      · rw [if_pos hseen] at h
        obtain rfl := Except.ok.inj h
        exact .skip hp hnode hseen
      · rw [if_neg hseen] at h
        cases hdis : p.disagrees (p.child s.current node c place) with
        | true =>
          rw [hdis] at h
          cases h
        | false =>
          rw [hdis] at h
          obtain rfl := Except.ok.inj h
          exact .record hp hnode hseen hdis

namespace Explored

/-- The key of a child of the current node, for a symbol that is still to be tried. -/
theorem key_child_current (h : Explored a b tried s) {c : Char} {place : Nat}
    {rest : List (Char × Nat)} {node : Node} (hp : s.pending = (c, place) :: rest)
    (hnode : s.nodes[s.current]? = some node) :
    ((pairing a b).child s.current node c place).key =
      keyAfter a b (wordAt s.nodes s.current ++ [c]) := by
  have hmem : (c, place) ∈ (pairing a b).symbols := by
    rw [h.symbols, hp]
    exact List.mem_append_right _ List.mem_cons_self
  exact key_child s.current (h.key _ node hnode) hmem

/-- **A move keeps the invariant.** -/
theorem of_move (h : Explored a b tried s) {t : Search} (hmove : (pairing a b).move s = .ok t) :
    ∃ tried', Explored a b tried' t := by
  cases Pairing.moved_of_move hmove with
  | advance hp hlt => exact ⟨[], h.advance hp hlt⟩
  | skip hp hnode hseen => exact ⟨_, h.skip hp (h.key_child_current hp hnode ▸ hseen)⟩
  | record hp hnode hnew hagrees =>
    exact ⟨_, h.record hp rfl (h.key_child_current hp hnode) hnew hagrees⟩

/-- **A move that ends the search gives the right verdict.** -/
theorem answers_of_move (h : Explored a b tried s) {verdict : Verdict}
    (hmove : (pairing a b).move s = .error verdict) : Answers a b verdict := by
  cases hp : s.pending with
  | nil =>
    have hsize := h.size_le_pairBound
    have hcurrent := h.current_lt
    rw [move_of_nil _ hp] at hmove
    by_cases hlt : s.current + 1 < s.nodes.size
    · rw [if_pos ⟨hlt, by omega⟩] at hmove
      cases hmove
    · -- all nodes are done, so every word leads to a recorded pair
      rw [if_neg fun hc => hlt hc.1] at hmove
      obtain rfl := Except.error.inj hmove
      intro u
      by_cases hu : Joint a b u
      · exact h.agree_of_seen (h.seen_of_complete hp (by omega) hu)
      · exact agree_of_foreign hu
  | cons symbol rest =>
    obtain ⟨c, place⟩ := symbol
    obtain ⟨node, hget, -⟩ := h.exists_node h.current_lt
    have hchild := h.key_child_current hp hget
    rw [move_of_cons _ hp hget] at hmove
    dsimp only at hmove
    by_cases hseen : s.seen.contains ((pairing a b).child s.current node c place).key = true
    · rw [if_pos hseen] at hmove
      cases hmove
    rw [if_neg hseen] at hmove
    cases hdis : (pairing a b).disagrees ((pairing a b).child s.current node c place) with
    | false =>
      rw [hdis] at hmove
      cases hmove
    | true =>
      -- the word of the new pair is the counterexample; all smaller words lead to recorded pairs
      have hword : (wordTo (s.nodes.push ((pairing a b).child s.current node c place))
          s.nodes.size).toList = wordAt s.nodes s.current ++ [c] := by
        rw [wordTo, String.toList_ofList]
        exact wordAt_push_size rfl h.current_lt
      rw [if_pos hdis] at hmove
      obtain rfl := Except.error.inj hmove
      rw [Answers, hword]
      constructor
      · rw [← agree_of_key hchild, hdis]
        decide
      · intro u hlt
        by_cases hu : Joint a b u
        · exact h.agree_of_seen (h.seen_of_shortlex (h.next_symbol hp).2 hu hlt)
        · exact agree_of_foreign hu

/-- **A search that is under way ends with the right verdict.** -/
theorem run (h : Explored a b tried s) : Answers a b ((pairing a b).run s) := by
  fun_induction Pairing.run (pairing a b) s generalizing tried with
  | case1 s verdict hmove => exact h.answers_of_move hmove
  | case2 s t hmove ih =>
    obtain ⟨tried', ht⟩ := h.of_move hmove
    exact ih ht

end Explored

/-- At the start, only the pair of the empty word is recorded. -/
theorem explored_start (hagree : (pairing a b).disagrees (pairing a b).root = false) :
    Explored a b [] (pairing a b).start := by
  have hget : ∀ (i : Nat) (node : Node), (pairing a b).start.nodes[i]? = some node →
      i = 0 ∧ node = (pairing a b).root := fun _ _ hi => getElem?_singleton_eq_some.mp hi
  have hword : wordAt (pairing a b).start.nodes 0 = [] := by
    simp [wordAt, lettersTo, Pairing.start, Pairing.root]
  have hnone : ∀ i x, ¬ Tried [] (pairing a b).start i x := by
    rintro i x (hi | ⟨-, hx⟩)
    · exact absurd hi (Nat.not_lt_zero i)
    · cases hx
  have hzero : ∀ i, i < (pairing a b).start.nodes.size → i = 0 := by
    intro i hi
    simpa [Pairing.start] using hi
  refine ⟨by simp [Pairing.start], rfl, fun key => ?seen, ?key, hword, ?link, ?increasing, ?least,
    fun i c place _ ht => absurd ht (hnone _ _), ?agrees⟩
  case seen =>
    simp only [Pairing.start, Std.HashSet.contains_insert, Std.HashSet.contains_empty,
      Bool.or_false, beq_iff_eq]
    constructor
    · rintro rfl
      exact ⟨0, (pairing a b).root, rfl, rfl⟩
    · rintro ⟨i, node, hi, rfl⟩
      rw [(hget i node hi).2]
  case key =>
    intro i node hi
    obtain ⟨rfl, rfl⟩ := hget i node hi
    rw [hword]
    rfl
  case link =>
    intro i hpos hi
    exact absurd (hzero i hi) (Nat.ne_of_gt hpos)
  case increasing =>
    intro i j hij hj
    have := hzero j hj
    omega
  case least =>
    intro i hi u _ _
    rw [hzero i hi, hword]
    exact List.not_shortlex_nil_right
  case agrees =>
    intro i node hi
    rw [(hget i node hi).2]
    exact hagree

theorem equivalent_answers (a b : Automaton) : Answers a b (a.equivalent b) := by
  have hroot : (pairing a b).root.key = keyAfter a b [] := rfl
  unfold equivalent
  cases hdis : (pairing a b).disagrees (pairing a b).root with
  | true =>
    simp only [if_true, hdis]
    constructor
    · rw [String.toList_empty, ← agree_of_key hroot, hdis]
      decide
    · intro u hlt
      exact absurd hlt List.not_shortlex_nil_right
  | false =>
    simp only [hdis]
    exact (explored_start hdis).run

theorem agree_iff_accepts {w : String} :
    Agree a b w.toList ↔ a.accepts w = b.accepts w := by
  rw [Agree, accepts_eq, accepts_eq]

/-- **The equivalence check is right.** It finds the automata equal if and only if they accept the
same words, whatever characters these have. If it gives a word, exactly one automaton accepts that
word, and they agree on every word before it: on the shorter ones, and on those of its length that
are earlier in the order of code points. -/
theorem equivalent_decides (a b : Automaton) :
    (a.equivalent b = .equal ↔ ∀ w : String, a.accepts w = b.accepts w) ∧
      ∀ w : String, a.equivalent b = .counterexample w →
        a.accepts w ≠ b.accepts w ∧
          ∀ u : String, Precedes u w → a.accepts u = b.accepts u := by
  have hright := equivalent_answers a b
  refine ⟨⟨fun heq w => ?_, fun hall => ?_⟩, fun w heq => ?_⟩
  · rw [heq] at hright
    exact agree_iff_accepts.mp (hright w.toList)
  · cases hverdict : a.equivalent b with
    | equal => rfl
    | counterexample w =>
      rw [hverdict] at hright
      exact absurd (agree_iff_accepts.mpr (hall w)) hright.1
  · rw [heq] at hright
    refine ⟨fun hsame => hright.1 (agree_iff_accepts.mpr hsame), fun u hu => ?_⟩
    exact agree_iff_accepts.mp (hright.2 _ (precedes_iff.mp hu))

end RegularLanguages.Automaton
