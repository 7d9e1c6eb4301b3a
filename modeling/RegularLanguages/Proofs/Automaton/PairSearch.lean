import Mathlib.Data.Finset.Powerset
import RegularLanguages.Proofs.Alphabet
import RegularLanguages.Proofs.Automaton.Reading
import RegularLanguages.Proofs.Automaton.WordOrder

/-!
# The search for a distinguishing word

What holds at every moment of the search for a word on which two automata differ.

`Explored` is the invariant. Its heart are three facts about the words by which the nodes were
found: they increase from node to node (`increasing`), each of them is the least word that leads to
its pair of sets (`least`), and a symbol that was tried on a node leads to a pair that is recorded
(`expanded`). Together they say that every word before the next one to be tried leads to a recorded
pair (`Explored.seen_of_shortlex`). So a new pair is new for every smaller word, and the first pair
on which the automata differ has the first word on which they differ.

Words with a character outside the joint alphabet are left out of the search. Both automata refuse
them (`agree_of_foreign`).
-/

namespace RegularLanguages.Automaton

variable {a b : Automaton} {s : Search} {tried : List (Char × Nat)}

/-! ## Pairs of sets after a word -/

/-- The members of the two sets of states after a word. -/
def keyAfter (a b : Automaton) (word : List Char) : Key :=
  ((a.statesAfter word).toList, (b.statesAfter word).toList)

/-- Both automata accept the word, or both refuse it. -/
def Agree (a b : Automaton) (word : List Char) : Prop :=
  a.acceptsAny (a.statesAfter word) = b.acceptsAny (b.statesAfter word)

/-- Every character of the word is a symbol of the joint alphabet. -/
def Joint (a b : Automaton) (word : List Char) : Prop :=
  ∀ c ∈ word, ∃ place, (c, place) ∈ (pairing a b).symbols

theorem symbols_eq_zipIdx (a b : Automaton) :
    (pairing a b).symbols = (a.alphabet.union b.alphabet).symbols.zipIdx := rfl

theorem keyAfter_append_congr {u v : List Char} (h : keyAfter a b u = keyAfter a b v) (c : Char) :
    keyAfter a b (u ++ [c]) = keyAfter a b (v ++ [c]) := by
  obtain ⟨hl, hr⟩ := Prod.mk.inj h
  simp only [keyAfter, statesAfter_append_singleton, stepChar_congr hl, stepChar_congr hr]

/-- The key of a child is the key after one more character. -/
theorem key_child {node : Node} {word : List Char} {c : Char} {place : Nat} (i : Nat)
    (hkey : node.key = keyAfter a b word) (hc : (c, place) ∈ (pairing a b).symbols) :
    ((pairing a b).child i node c place).key = keyAfter a b (word ++ [c]) := by
  have hplace : (a.alphabet.union b.alphabet).symbols[place]? = some c := by
    rw [symbols_eq_zipIdx, List.mk_mem_zipIdx_iff_getElem?] at hc
    exact hc
  obtain ⟨hl, hr⟩ := Prod.mk.inj hkey
  simp only [Node.key, Pairing.child, pairing, keyAfter, statesAfter_append_singleton]
  rw [toList_sideStep hplace, toList_sideStep hplace, stepChar_congr hl, stepChar_congr hr]

theorem agree_of_key {node : Node} {word : List Char} (hkey : node.key = keyAfter a b word) :
    (pairing a b).disagrees node = false ↔ Agree a b word := by
  obtain ⟨hl, hr⟩ := Prod.mk.inj hkey
  rw [Agree, ← acceptsAny_congr hl, ← acceptsAny_congr hr]
  simp [Pairing.disagrees, pairing, side]

/-- Both automata refuse a word with a character that neither of them knows. -/
theorem agree_of_foreign {word : List Char} (h : ¬ Joint a b word) : Agree a b word := by
  simp only [Joint, not_forall] at h
  obtain ⟨c, hmem, hc⟩ := h
  have hnot : c ∉ (a.alphabet.union b.alphabet).symbols := by
    intro hin
    obtain ⟨place, hplace⟩ := List.mem_iff_getElem?.mp hin
    exact hc ⟨place, List.mk_mem_zipIdx_iff_getElem?.mpr hplace⟩
  obtain ⟨ha, hb⟩ := not_or.mp (mt Alphabet.mem_union.mpr hnot)
  rw [Agree, acceptsAny_statesAfter_of_not_mem hmem (Alphabet.idOf?_eq_none_iff.mpr ha),
    acceptsAny_statesAfter_of_not_mem hmem (Alphabet.idOf?_eq_none_iff.mpr hb)]

/-! ## Words of nodes -/

theorem getElem?_singleton_eq_some {node found : Node} {i : Nat} :
    (#[node] : Array Node)[i]? = some found ↔ i = 0 ∧ found = node := by
  rw [Array.getElem?_singleton]
  split
  · next heq => simp [heq, eq_comm]
  · next hne => simp [hne]

theorem getElem?_push_eq_some {nodes : Array Node} {node found : Node} {i : Nat} :
    (nodes.push node)[i]? = some found ↔
      nodes[i]? = some found ∨ i = nodes.size ∧ found = node := by
  rw [Array.getElem?_push]
  split
  · next heq => simp [heq, eq_comm]
  · next hne => simp [hne]

/-- The word by which a node was found. -/
def wordAt (nodes : Array Node) (i : Nat) : List Char := (lettersTo nodes i).reverse

theorem lettersTo_push (nodes : Array Node) (node : Node) {i : Nat} (h : i < nodes.size) :
    lettersTo (nodes.push node) i = lettersTo nodes i := by
  induction i using Nat.strongRecOn with
  | ind i ih =>
    have hget : (nodes.push node)[i]? = nodes[i]? := by
      rw [Array.getElem?_push, if_neg (Nat.ne_of_lt h)]
    rw [lettersTo, lettersTo, hget]
    cases nodes[i]? with
    | none => rfl
    | some found =>
      cases hparent : found.parent with
      | none => simp only [hparent]
      | some link =>
        obtain ⟨parent, c⟩ := link
        simp only [hparent]
        by_cases hlt : parent < i
        · rw [if_pos hlt, if_pos hlt, ih parent hlt (by omega)]
        · rw [if_neg hlt, if_neg hlt]

theorem wordAt_push (nodes : Array Node) (node : Node) {i : Nat} (h : i < nodes.size) :
    wordAt (nodes.push node) i = wordAt nodes i := by
  rw [wordAt, wordAt, lettersTo_push nodes node h]

/-- A new node goes on from the word of its parent. -/
theorem wordAt_push_size {nodes : Array Node} {node : Node} {parent : Nat} {c : Char}
    (hlink : node.parent = some (parent, c)) (h : parent < nodes.size) :
    wordAt (nodes.push node) nodes.size = wordAt nodes parent ++ [c] := by
  have hget : (nodes.push node)[nodes.size]? = some node := by simp
  rw [wordAt, lettersTo, hget]
  simp only [hlink, if_pos h, lettersTo_push nodes node h, List.reverse_cons, wordAt]

/-! ## The invariant -/

/-- The symbol was tried on the node with the given number. -/
def Tried (tried : List (Char × Nat)) (s : Search) (i : Nat) (symbol : Char × Nat) : Prop :=
  i < s.current ∨ i = s.current ∧ symbol ∈ tried

/-- What is known during the search, when the given symbols were tried on the current node. -/
structure Explored (a b : Automaton) (tried : List (Char × Nat)) (s : Search) : Prop where
  current_lt : s.current < s.nodes.size
  symbols : (pairing a b).symbols = tried ++ s.pending
  seen : ∀ key, s.seen.contains key = true ↔ ∃ (i : Nat) (node : Node),
    s.nodes[i]? = some node ∧ node.key = key
  key : ∀ (i : Nat) (node : Node), s.nodes[i]? = some node → node.key = keyAfter a b (wordAt s.nodes i)
  root : wordAt s.nodes 0 = []
  link : ∀ i, 0 < i → i < s.nodes.size → ∃ j c place, j < i ∧
    wordAt s.nodes i = wordAt s.nodes j ++ [c] ∧ (c, place) ∈ (pairing a b).symbols ∧
    Tried tried s j (c, place)
  increasing : ∀ i j, i < j → j < s.nodes.size →
    List.Shortlex (· < ·) (wordAt s.nodes i) (wordAt s.nodes j)
  least : ∀ i, i < s.nodes.size → ∀ u, Joint a b u →
    keyAfter a b u = keyAfter a b (wordAt s.nodes i) →
      ¬ List.Shortlex (· < ·) u (wordAt s.nodes i)
  expanded : ∀ i c place, (c, place) ∈ (pairing a b).symbols → Tried tried s i (c, place) →
    s.seen.contains (keyAfter a b (wordAt s.nodes i ++ [c])) = true
  agrees : ∀ (i : Nat) (node : Node), s.nodes[i]? = some node → (pairing a b).disagrees node = false

theorem symbols_pairwise (a b : Automaton) :
    (pairing a b).symbols.Pairwise fun x y => x.1 < y.1 := by
  have h := (a.alphabet.union b.alphabet).increasing
  rw [← List.zipIdx_map_fst 0 (a.alphabet.union b.alphabet).symbols, List.pairwise_map] at h
  exact h

namespace Explored

theorem exists_node (h : Explored a b tried s) {i : Nat} (hi : i < s.nodes.size) :
    ∃ node, s.nodes[i]? = some node ∧ node.key = keyAfter a b (wordAt s.nodes i) := by
  have hget : s.nodes[i]? = some s.nodes[i] := Array.getElem?_eq_getElem hi
  exact ⟨_, hget, h.key i _ hget⟩

/-- A recorded pair is the pair after the word of one of the nodes. -/
theorem seen_iff (h : Explored a b tried s) {key : Key} :
    s.seen.contains key = true ↔
      ∃ i, i < s.nodes.size ∧ keyAfter a b (wordAt s.nodes i) = key := by
  rw [h.seen]
  constructor
  · rintro ⟨i, node, hi, rfl⟩
    exact ⟨i, (Array.getElem?_eq_some_iff.mp hi).1, (h.key i node hi).symm⟩
  · rintro ⟨i, hi, rfl⟩
    obtain ⟨node, hget, hkey⟩ := h.exists_node hi
    exact ⟨i, node, hget, hkey⟩

/-- The automata agree on every word that leads to a recorded pair. -/
theorem agree_of_seen (h : Explored a b tried s) {u : List Char}
    (hu : s.seen.contains (keyAfter a b u) = true) : Agree a b u := by
  obtain ⟨i, node, hi, hkey⟩ := (h.seen _).mp hu
  exact (agree_of_key hkey).mp (h.agrees i node hi)

theorem seen_nil (h : Explored a b tried s) : s.seen.contains (keyAfter a b []) = true :=
  h.seen_iff.mpr ⟨0, Nat.zero_lt_of_lt h.current_lt, by rw [h.root]⟩

/-- From a recorded pair, a symbol that was tried leads to a recorded pair. -/
theorem seen_append (h : Explored a b tried s) {i : Nat} {u : List Char} {c : Char} {place : Nat}
    (hkey : keyAfter a b (wordAt s.nodes i) = keyAfter a b u)
    (hc : (c, place) ∈ (pairing a b).symbols) (ht : Tried tried s i (c, place)) :
    s.seen.contains (keyAfter a b (u ++ [c])) = true := by
  rw [← keyAfter_append_congr hkey c]
  exact h.expanded i c place hc ht

/-- **Every smaller word leads to a recorded pair.** Smaller than the word that comes next, when the
current node goes on with `c`. The induction is on the word from its end: without its last
character it leads to a node, and that node is an earlier one, because no smaller word leads to a
later one. -/
theorem seen_of_shortlex (h : Explored a b tried s) {c : Char}
    (hc : ∀ d place, (d, place) ∈ (pairing a b).symbols → d < c → (d, place) ∈ tried)
    {u : List Char} (hu : Joint a b u)
    (hlt : List.Shortlex (· < ·) u (wordAt s.nodes s.current ++ [c])) :
    s.seen.contains (keyAfter a b u) = true := by
  induction u using List.reverseRecOn with
  | nil => exact h.seen_nil
  | append_singleton u d ih =>
    have hu' : Joint a b u := fun x hx => hu x (List.mem_append_left _ hx)
    obtain ⟨place, hd⟩ := hu d (by simp)
    rcases shortlex_append_singleton.mp hlt with hlt | ⟨rfl, hdc⟩
    · obtain ⟨i, hi, hkey⟩ := h.seen_iff.mp (ih hu' (hlt.append_right [c]))
      have hnot := h.least i hi u hu' hkey.symm
      -- a node from the current one on has a word that is not smaller than the current word
      have hcur : i < s.current := by
        rcases Nat.lt_trichotomy i s.current with hi' | rfl | hi'
        · exact hi'
        · exact absurd hlt hnot
        · exact absurd (shortlex_trans hlt (h.increasing _ _ hi' hi)) hnot
      exact h.seen_append hkey hd (Or.inl hcur)
    · exact h.seen_append rfl hd (Or.inr ⟨rfl, hc d place hd hdc⟩)

/-- The nodes come before the next word to be tried. -/
theorem shortlex_next (h : Explored a b tried s) {c : Char}
    (hc : ∀ x ∈ tried, x.1 < c) {i : Nat} (hi : i < s.nodes.size) :
    List.Shortlex (· < ·) (wordAt s.nodes i) (wordAt s.nodes s.current ++ [c]) := by
  rcases Nat.eq_zero_or_pos i with rfl | hpos
  · rw [h.root]
    exact .of_length_lt (by simp)
  · obtain ⟨j, d, place, -, hword, -, ht⟩ := h.link i hpos hi
    rw [hword, shortlex_append_singleton]
    rcases ht with hj | ⟨rfl, hd⟩
    · exact Or.inl (h.increasing j s.current hj h.current_lt)
    · exact Or.inr ⟨rfl, hc _ hd⟩

/-! ## The moves -/

/-- The next symbol is greater than the ones that were tried, and no symbol lies between. -/
theorem next_symbol (h : Explored a b tried s) {c : Char} {place : Nat}
    {rest : List (Char × Nat)} (hp : s.pending = (c, place) :: rest) :
    (∀ x ∈ tried, x.1 < c) ∧
      ∀ d place', (d, place') ∈ (pairing a b).symbols → d < c → (d, place') ∈ tried := by
  have hsorted := symbols_pairwise a b
  rw [h.symbols, hp, List.pairwise_append] at hsorted
  obtain ⟨-, hpending, htried⟩ := hsorted
  refine ⟨fun x hx => htried x hx _ List.mem_cons_self, fun d place' hd hdc => ?_⟩
  rw [h.symbols, hp, List.mem_append, List.mem_cons] at hd
  rcases hd with hd | hd | hd
  · exact hd
  · obtain ⟨rfl, -⟩ := Prod.mk.inj hd
    exact absurd hdc (lt_irrefl _)
  · exact absurd ((List.pairwise_cons.mp hpending).1 _ hd) (lt_asymm hdc)

/-- Going on to the next node. -/
theorem advance (h : Explored a b tried s) (hp : s.pending = [])
    (hlt : s.current + 1 < s.nodes.size) :
    Explored a b [] ⟨s.nodes, s.seen, s.current + 1, (pairing a b).symbols⟩ where
  current_lt := hlt
  symbols := rfl
  seen := h.seen
  key := h.key
  root := h.root
  link i hpos hi := by
    obtain ⟨j, c, place, hji, hword, hmem, ht⟩ := h.link i hpos hi
    refine ⟨j, c, place, hji, hword, hmem, Or.inl ?_⟩
    rcases ht with hj | ⟨rfl, -⟩
    · exact Nat.lt_succ_of_lt hj
    · exact Nat.lt_succ_self _
  increasing := h.increasing
  least := h.least
  expanded i c place hmem ht := by
    refine h.expanded i c place hmem ?_
    rcases ht with hi | ⟨-, hnil⟩
    · rcases Nat.lt_succ_iff_lt_or_eq.mp hi with hi | rfl
      · exact Or.inl hi
      · refine Or.inr ⟨rfl, ?_⟩
        rw [h.symbols, hp, List.append_nil] at hmem
        exact hmem
    · cases hnil
  agrees := h.agrees

theorem lt_of_tried (h : Explored a b tried s) {i : Nat} {x : Char × Nat}
    (ht : Tried tried s i x) : i < s.nodes.size := by
  rcases ht with hi | ⟨rfl, -⟩
  · exact Nat.lt_trans hi h.current_lt
  · exact h.current_lt

theorem tried_append {c : Char} {place i : Nat} {x : Char × Nat} {t : Search}
    (hcur : t.current = s.current) (ht : Tried tried s i x) :
    Tried (tried ++ [(c, place)]) t i x := by
  rcases ht with hi | ⟨hi, hx⟩
  · exact Or.inl (hcur ▸ hi)
  · exact Or.inr ⟨hi.trans hcur.symm, List.mem_append_left _ hx⟩

theorem tried_cases {c : Char} {place i : Nat} {x : Char × Nat} {t : Search}
    (hcur : t.current = s.current) (ht : Tried (tried ++ [(c, place)]) t i x) :
    Tried tried s i x ∨ i = s.current ∧ x = (c, place) := by
  rcases ht with hi | ⟨hi, hx⟩
  · exact Or.inl (Or.inl (hcur ▸ hi))
  · rcases List.mem_append.mp hx with hx | hx
    · exact Or.inl (Or.inr ⟨hi.trans hcur, hx⟩)
    · exact Or.inr ⟨hi.trans hcur, List.mem_singleton.mp hx⟩

/-- Passing over a pair that is recorded. -/
theorem skip (h : Explored a b tried s) {c : Char} {place : Nat} {rest : List (Char × Nat)}
    (hp : s.pending = (c, place) :: rest)
    (hseen : s.seen.contains (keyAfter a b (wordAt s.nodes s.current ++ [c])) = true) :
    Explored a b (tried ++ [(c, place)]) ⟨s.nodes, s.seen, s.current, rest⟩ where
  current_lt := h.current_lt
  symbols := by rw [h.symbols, hp, List.append_assoc]; rfl
  seen := h.seen
  key := h.key
  root := h.root
  link i hpos hi := by
    obtain ⟨j, d, place', hji, hword, hmem, ht⟩ := h.link i hpos hi
    exact ⟨j, d, place', hji, hword, hmem, tried_append rfl ht⟩
  increasing := h.increasing
  least := h.least
  expanded i d place' hmem ht := by
    rcases tried_cases rfl ht with ht | ⟨rfl, hd⟩
    · exact h.expanded i d place' hmem ht
    · obtain ⟨rfl, rfl⟩ := Prod.mk.inj hd
      exact hseen
  agrees := h.agrees

/-! ## A new node -/

/-- The key of each node belongs to its word, also that of a new child of the current node. -/
theorem key_push (h : Explored a b tried s) {c : Char} {node : Node}
    (hlink : node.parent = some (s.current, c))
    (hkey : node.key = keyAfter a b (wordAt s.nodes s.current ++ [c])) {i : Nat} {found : Node}
    (hi : (s.nodes.push node)[i]? = some found) :
    found.key = keyAfter a b (wordAt (s.nodes.push node) i) := by
  rcases getElem?_push_eq_some.mp hi with hi | ⟨rfl, rfl⟩
  · rw [wordAt_push _ _ (Array.getElem?_eq_some_iff.mp hi).1]
    exact h.key i found hi
  · rw [wordAt_push_size hlink h.current_lt]
    exact hkey

/-- The words increase, also to the word of a new child of the current node. -/
theorem increasing_push (h : Explored a b tried s) {c : Char} {place : Nat}
    {rest : List (Char × Nat)} {node : Node} (hp : s.pending = (c, place) :: rest)
    (hlink : node.parent = some (s.current, c)) {i j : Nat} (hij : i < j)
    (hj : j < (s.nodes.push node).size) :
    List.Shortlex (· < ·) (wordAt (s.nodes.push node) i) (wordAt (s.nodes.push node) j) := by
  rw [Array.size_push] at hj
  rcases Nat.lt_succ_iff_lt_or_eq.mp hj with hlt | rfl
  · rw [wordAt_push _ _ (Nat.lt_trans hij hlt), wordAt_push _ _ hlt]
    exact h.increasing i j hij hlt
  · rw [wordAt_push _ _ hij, wordAt_push_size hlink h.current_lt]
    exact h.shortlex_next (h.next_symbol hp).1 hij

/-- No smaller word leads to the pair of a node, also if the node is a new child of the current one:
a smaller word would lead to a recorded pair, but the pair of the child is new. -/
theorem least_push (h : Explored a b tried s) {c : Char} {place : Nat}
    {rest : List (Char × Nat)} {node : Node} (hp : s.pending = (c, place) :: rest)
    (hlink : node.parent = some (s.current, c))
    (hkey : node.key = keyAfter a b (wordAt s.nodes s.current ++ [c]))
    (hnew : ¬ s.seen.contains node.key = true) {i : Nat} (hi : i < (s.nodes.push node).size)
    {u : List Char} (hu : Joint a b u)
    (hsame : keyAfter a b u = keyAfter a b (wordAt (s.nodes.push node) i)) :
    ¬ List.Shortlex (· < ·) u (wordAt (s.nodes.push node) i) := by
  rw [Array.size_push] at hi
  rcases Nat.lt_succ_iff_lt_or_eq.mp hi with hlt | rfl
  · rw [wordAt_push _ _ hlt] at hsame ⊢
    exact h.least i hlt u hu hsame
  · intro hlt
    rw [wordAt_push_size hlink h.current_lt] at hsame hlt
    refine hnew ?_
    rw [hkey, ← hsame]
    exact h.seen_of_shortlex (h.next_symbol hp).2 hu hlt

/-- Recording a pair that is new, and on which the automata agree. -/
theorem record (h : Explored a b tried s) {c : Char} {place : Nat} {rest : List (Char × Nat)}
    {node : Node} (hp : s.pending = (c, place) :: rest)
    (hlink : node.parent = some (s.current, c))
    (hkey : node.key = keyAfter a b (wordAt s.nodes s.current ++ [c]))
    (hnew : ¬ s.seen.contains node.key = true)
    (hagrees : (pairing a b).disagrees node = false) :
    Explored a b (tried ++ [(c, place)])
      ⟨s.nodes.push node, s.seen.insert node.key, s.current, rest⟩ := by
  have hmem : (c, place) ∈ (pairing a b).symbols := by rw [h.symbols, hp]; simp
  have hlast : wordAt (s.nodes.push node) s.nodes.size = wordAt s.nodes s.current ++ [c] :=
    wordAt_push_size hlink h.current_lt
  have hold : ∀ i, i < s.nodes.size → wordAt (s.nodes.push node) i = wordAt s.nodes i :=
    fun i hi => wordAt_push s.nodes node hi
  have hsize : (s.nodes.push node).size = s.nodes.size + 1 := Array.size_push _
  refine ⟨by rw [hsize]; exact Nat.lt_succ_of_lt h.current_lt,
    by rw [h.symbols, hp, List.append_assoc]; rfl, fun key => ?seen,
    fun _ _ => h.key_push hlink hkey, ?root, ?link, fun _ _ => h.increasing_push hp hlink,
    fun _ hi _ => h.least_push hp hlink hkey hnew hi, ?expanded, ?agrees⟩
  case seen =>
    rw [Std.HashSet.contains_insert, Bool.or_eq_true, beq_iff_eq, h.seen]
    constructor
    · rintro (rfl | ⟨i, found, hi, rfl⟩)
      · exact ⟨s.nodes.size, node, by simp, rfl⟩
      · exact ⟨i, found, getElem?_push_eq_some.mpr (Or.inl hi), rfl⟩
    · rintro ⟨i, found, hi, rfl⟩
      rcases getElem?_push_eq_some.mp hi with hi | ⟨-, rfl⟩
      · exact Or.inr ⟨i, found, hi, rfl⟩
      · exact Or.inl rfl
  case root =>
    rw [hold 0 (Nat.zero_lt_of_lt h.current_lt)]
    exact h.root
  case link =>
    intro i hpos hi
    rcases Nat.lt_succ_iff_lt_or_eq.mp (hsize ▸ hi) with hlt | rfl
    · obtain ⟨j, d, place', hji, hword, hd, ht⟩ := h.link i hpos hlt
      have hj : j < s.nodes.size := h.lt_of_tried ht
      exact ⟨j, d, place', hji, by rw [hold i hlt, hold j hj, hword], hd, tried_append rfl ht⟩
    · refine ⟨s.current, c, place, h.current_lt, ?_, hmem, Or.inr ⟨rfl, by simp⟩⟩
      rw [hlast, hold _ h.current_lt]
  case expanded =>
    -- the only symbol that is newly tried leads to the new pair
    intro i d place' hd ht
    rw [Std.HashSet.contains_insert, Bool.or_eq_true, beq_iff_eq]
    rcases tried_cases rfl ht with ht | ⟨rfl, heq⟩
    · rw [hold i (h.lt_of_tried ht)]
      exact Or.inr (h.expanded i d place' hd ht)
    · obtain ⟨rfl, rfl⟩ := Prod.mk.inj heq
      rw [hold _ h.current_lt]
      exact Or.inl hkey
  case agrees =>
    intro i found hi
    rcases getElem?_push_eq_some.mp hi with hi | ⟨-, rfl⟩
    · exact h.agrees i found hi
    · exact hagrees

end Explored

end RegularLanguages.Automaton
