import RegularLanguages.Automaton.Algebra
import RegularLanguages.Proofs.Automaton.Verdict

/-!
# The search goes through the words in order

What is known of the nodes at every point of the search for a distinguishing word, also when a node
was just made and its pair is not recorded yet. The last node of a search that finds a difference
is one that is never recorded.

`Listed` is about the nodes alone: their words lead to their pairs, they increase, and none of them
could have been smaller. `Settled` is about the recorded pairs: the automata agree on them, and no
word before the word of the last node leads to another one. `Explored`, which holds between two
moves, gives both for the nodes that there are (`Explored.listed`) and with a new child of the
current node (`Explored.listed_push`, `Explored.settled_push`).

A word leads to a pair if the automata together know its characters. The search never looks at other
words, which both automata refuse.
-/

namespace RegularLanguages.Automaton

variable {a b : Automaton} {s t : Search} {tried : List (Char × Nat)} {nodes : Array Node}
  {seen : Std.HashSet Key}

/-! ## Points of the search -/

namespace Pairing

/-- The search comes to this state, before a move. -/
inductive Reaches (p : Pairing) : Search → Prop
  | start (hagree : p.disagrees p.root = false) : Reaches p p.start
  | move {s t : Search} (hs : Reaches p s) (hmove : p.move s = .ok t) : Reaches p t

/-- The nodes and the recorded pairs at a point of the search: before a move, or in the middle of a
move that made a node and has not recorded its pair. -/
inductive Point (p : Pairing) : Array Node → Std.HashSet Key → Prop
  | between {s : Search} (hs : p.Reaches s) : Point p s.nodes s.seen
  | made {s : Search} {c : Char} {place : Nat} {rest : List (Char × Nat)} {node : Node}
      (hs : p.Reaches s) (hpending : s.pending = (c, place) :: rest)
      (hnode : s.nodes[s.current]? = some node)
      (hnew : ¬ s.seen.contains (p.child s.current node c place).key = true) :
      Point p (s.nodes.push (p.child s.current node c place)) s.seen

end Pairing

/-- Every character of the word is a symbol of one of the automata. -/
def Known (a b : Automaton) (word : String) : Prop :=
  ∀ c ∈ word.toList, c ∈ a.alphabet.symbols ∨ c ∈ b.alphabet.symbols

/-- From the closures of their starts, the word leads the automata to the sets of the node. -/
structure LeadsTo (a b : Automaton) (word : String) (node : Node) : Prop where
  known : Known a b word
  left : node.left.toList = (a.statesAfter word.toList).toList
  right : node.right.toList = (b.statesAfter word.toList).toList

theorem joint_iff {word : String} : Joint a b word.toList ↔ Known a b word := by
  have hsymbol : ∀ c, (∃ place, (c, place) ∈ (pairing a b).symbols) ↔
      c ∈ a.alphabet.symbols ∨ c ∈ b.alphabet.symbols := by
    intro c
    rw [← Alphabet.mem_union, symbols_eq_zipIdx, List.mem_iff_getElem?]
    simp only [List.mk_mem_zipIdx_iff_getElem?]
  simp only [Joint, Known, hsymbol]

theorem leadsTo_iff {word : String} {node : Node} :
    LeadsTo a b word node ↔ Joint a b word.toList ∧ node.key = keyAfter a b word.toList := by
  rw [joint_iff]
  constructor
  · rintro ⟨hknown, hleft, hright⟩
    exact ⟨hknown, Prod.ext hleft hright⟩
  · rintro ⟨hknown, hkey⟩
    obtain ⟨hleft, hright⟩ := Prod.mk.inj hkey
    exact ⟨hknown, hleft, hright⟩

theorem toList_wordTo (nodes : Array Node) (i : Nat) : (wordTo nodes i).toList = wordAt nodes i :=
  String.toList_ofList

/-! ## The nodes -/

/-- What is known of the nodes alone. -/
structure Listed (a b : Automaton) (nodes : Array Node) : Prop where
  pos : 0 < nodes.size
  joint : ∀ i < nodes.size, Joint a b (wordAt nodes i)
  key : ∀ (i : Nat) (node : Node), nodes[i]? = some node → node.key = keyAfter a b (wordAt nodes i)
  increasing : ∀ i j, i < j → j < nodes.size →
    List.Shortlex (· < ·) (wordAt nodes i) (wordAt nodes j)
  least : ∀ i < nodes.size, ∀ u, Joint a b u → keyAfter a b u = keyAfter a b (wordAt nodes i) →
    ¬ List.Shortlex (· < ·) u (wordAt nodes i)

/-- What is known of the recorded pairs: they are pairs of nodes on which the automata agree, and
every word before the word of the last node leads to one of them. -/
structure Settled (a b : Automaton) (nodes : Array Node) (seen : Std.HashSet Key) : Prop where
  recorded : ∀ key, seen.contains key = true → ∃ (i : Nat) (node : Node),
    nodes[i]? = some node ∧ node.key = key ∧ (pairing a b).disagrees node = false
  covered : ∀ u, Joint a b u → List.Shortlex (· < ·) u (wordAt nodes (nodes.size - 1)) →
    seen.contains (keyAfter a b u) = true

namespace Explored

theorem listed (h : Explored a b tried s) : Listed a b s.nodes where
  pos := Nat.zero_lt_of_lt h.current_lt
  joint _ hi := h.joint_wordAt hi
  key := h.key
  increasing := h.increasing
  least := h.least

theorem recorded (h : Explored a b tried s) {key : Key} (hkey : s.seen.contains key = true) :
    ∃ (i : Nat) (node : Node), s.nodes[i]? = some node ∧ node.key = key ∧
      (pairing a b).disagrees node = false := by
  obtain ⟨i, node, hi, rfl⟩ := (h.seen key).mp hkey
  exact ⟨i, node, hi, rfl, h.agrees i node hi⟩

section Child

variable {c : Char} {place : Nat} {rest : List (Char × Nat)} {node : Node}

theorem listed_push (h : Explored a b tried s) (hp : s.pending = (c, place) :: rest)
    (hnode : s.nodes[s.current]? = some node)
    (hnew : ¬ s.seen.contains ((pairing a b).child s.current node c place).key = true) :
    Listed a b (s.nodes.push ((pairing a b).child s.current node c place)) where
  pos := by
    rw [Array.size_push]
    exact Nat.succ_pos _
  joint i hi := by
    rw [Array.size_push] at hi
    rcases Nat.lt_succ_iff_lt_or_eq.mp hi with hlt | rfl
    · rw [wordAt_push _ _ hlt]
      exact h.joint_wordAt hlt
    · rw [wordAt_push_size rfl h.current_lt]
      intro d hd
      rcases List.mem_append.mp hd with hd | hd
      · exact h.joint_wordAt h.current_lt d hd
      · obtain rfl := List.mem_singleton.mp hd
        refine ⟨place, ?_⟩
        rw [h.symbols, hp]
        exact List.mem_append_right _ List.mem_cons_self
  key _ _ := h.key_push rfl (h.key_child_current hp hnode)
  increasing _ _ := h.increasing_push hp rfl
  least _ hi _ := h.least_push hp rfl (h.key_child_current hp hnode) hnew hi

/-- Before the pair of a new node is recorded, every word before the word of the node leads to a
recorded pair: it is smaller than the word that comes next. -/
theorem settled_push (h : Explored a b tried s) (hp : s.pending = (c, place) :: rest) :
    Settled a b (s.nodes.push ((pairing a b).child s.current node c place)) s.seen where
  recorded key hkey := by
    obtain ⟨i, found, hi, hfound⟩ := h.recorded hkey
    exact ⟨i, found, getElem?_push_eq_some.mpr (Or.inl hi), hfound⟩
  covered u hu hlt := by
    rw [Array.size_push, Nat.add_sub_cancel, wordAt_push_size rfl h.current_lt] at hlt
    exact h.seen_of_shortlex (h.next_symbol hp).2 hu hlt

end Child

end Explored

/-! ## Every state that is reached -/

theorem explored_of_reaches (h : (pairing a b).Reaches s) : ∃ tried, Explored a b tried s := by
  induction h with
  | start hagree => exact ⟨[], explored_start hagree⟩
  | move _ hmove ih =>
    obtain ⟨tried, hexplored⟩ := ih
    exact hexplored.of_move hmove

/-- **Between two moves, every word before the word of the last node leads to a recorded pair.** The
words before the last node do not change until a move makes another one. -/
theorem seen_of_reaches (h : (pairing a b).Reaches s) {u : List Char} (hu : Joint a b u)
    (hlt : List.Shortlex (· < ·) u (wordAt s.nodes (s.nodes.size - 1))) :
    s.seen.contains (keyAfter a b u) = true := by
  induction h with
  | start hagree =>
    have hroot := (explored_start hagree).root
    rw [show (pairing a b).start.nodes.size - 1 = 0 from rfl, hroot] at hlt
    exact absurd hlt List.not_shortlex_nil_right
  | move hs hmove ih =>
    obtain ⟨tried, hexplored⟩ := explored_of_reaches hs
    cases Pairing.moved_of_move hmove with
    | advance => exact ih hlt
    | skip => exact ih hlt
    | record hp hnode hnew hagrees =>
      rw [Std.HashSet.contains_insert, Bool.or_eq_true]
      exact Or.inr ((hexplored.settled_push hp).covered u hu hlt)

/-- **What is known at every point of the search.** -/
theorem Pairing.Point.listed_settled (h : (pairing a b).Point nodes seen) :
    Listed a b nodes ∧ Settled a b nodes seen := by
  cases h with
  | between hs =>
    obtain ⟨tried, hexplored⟩ := explored_of_reaches hs
    exact ⟨hexplored.listed, fun key => hexplored.recorded, fun u => seen_of_reaches hs⟩
  | made hs hp hnode hnew =>
    obtain ⟨tried, hexplored⟩ := explored_of_reaches hs
    exact ⟨hexplored.listed_push hp hnode hnew, hexplored.settled_push hp⟩

/-! ## In terms of words -/

/-- **The search goes through the words in order.** At every point of it, the word of each node
leads to the pair of the node and is the least word that does, the words increase from node to node,
and every word before the word of the last node leads to a recorded pair, on which the automata
agree. A word with a character that neither automaton knows leads to no pair; they agree on it
too. -/
theorem search_in_word_order (h : (pairing a b).Point nodes seen) :
    0 < nodes.size ∧
      (∀ (i : Nat) (node : Node), nodes[i]? = some node →
        LeadsTo a b (wordTo nodes i) node ∧
          ∀ u, LeadsTo a b u node → u = wordTo nodes i ∨ Precedes (wordTo nodes i) u) ∧
      (∀ i j, i < j → j < nodes.size → Precedes (wordTo nodes i) (wordTo nodes j)) ∧
      ∀ u, Precedes u (wordTo nodes (nodes.size - 1)) →
        a.accepts u = b.accepts u ∧
          (Known a b u → ∃ (i : Nat) (node : Node), nodes[i]? = some node ∧
            seen.contains node.key = true ∧ LeadsTo a b u node ∧
            (pairing a b).disagrees node = false) := by
  obtain ⟨hlisted, hsettled⟩ := h.listed_settled
  refine ⟨hlisted.pos, fun i node hi => ⟨?leads, fun u hu => ?least⟩, fun i j hij hj => ?order,
    fun u hu => ?covered⟩
  case leads =>
    rw [leadsTo_iff, toList_wordTo]
    exact ⟨hlisted.joint i (Array.getElem?_eq_some_iff.mp hi).1, hlisted.key i node hi⟩
  case least =>
    obtain ⟨hjoint, hkey⟩ := leadsTo_iff.mp hu
    have hnot := hlisted.least i (Array.getElem?_eq_some_iff.mp hi).1 u.toList hjoint
      (hkey.symm.trans (hlisted.key i node hi))
    rw [precedes_iff, toList_wordTo]
    rcases shortlex_trichotomy u.toList (wordAt nodes i) with hlt | heq | hgt
    · exact absurd hlt hnot
    · left
      rw [← toList_wordTo] at heq
      exact String.toList_inj.mp heq
    · exact Or.inr hgt
  case order =>
    rw [precedes_iff, toList_wordTo, toList_wordTo]
    exact hlisted.increasing i j hij hj
  case covered =>
    rw [precedes_iff, toList_wordTo] at hu
    by_cases hjoint : Joint a b u.toList
    · obtain ⟨i, node, hi, hkey, hagree⟩ :=
        hsettled.recorded _ (hsettled.covered u.toList hjoint hu)
      refine ⟨agree_iff_accepts.mp ((agree_of_key hkey).mp hagree), fun _ => ⟨i, node, hi, ?_⟩⟩
      refine ⟨?_, leadsTo_iff.mpr ⟨hjoint, hkey⟩, hagree⟩
      rw [hkey]
      exact hsettled.covered u.toList hjoint hu
    · exact ⟨agree_iff_accepts.mp (agree_of_foreign hjoint),
        fun hknown => absurd (joint_iff.mpr hknown) hjoint⟩

/-- The automata for `a` and for `b` differ on the first node that is made. Its pair is not
recorded. -/
theorem search_in_word_order_of_letters :
    let a := singleEdge (.ofChars ['a']) 0
    let b := singleEdge (.ofChars ['b']) 0
    let p := pairing a b
    let node := p.child 0 p.root 'a' 0
    p.Point (p.start.nodes.push node) p.start.seen ∧ p.disagrees node = true ∧
      LeadsTo a b "a" node ∧ (∀ u, LeadsTo a b u node → u = "a" ∨ Precedes "a" u) ∧
      ∀ u, Precedes u "a" → a.accepts u = b.accepts u := by
  intro a b p node
  have hroot : p.disagrees p.root = false := by cbv
  have hpending : p.start.pending = [('a', 0), ('b', 1)] := by cbv
  have hseen : p.start.seen.contains node.key = false := by cbv
  have hpoint : p.Point (p.start.nodes.push node) p.start.seen :=
    .made (.start hroot) hpending rfl (ne_true_of_eq_false hseen)
  have hword : wordTo (p.start.nodes.push node) 1 = "a" := by cbv
  obtain ⟨-, hnodes, -, hbefore⟩ := search_in_word_order hpoint
  obtain ⟨hleads, hleast⟩ := hnodes 1 node rfl
  rw [hword] at hleads
  refine ⟨hpoint, by cbv, hleads, fun u hu => ?_, fun u hu => (hbefore u ?_).1⟩
  · rw [← hword]
    exact hleast u hu
  · rw [← hword] at hu
    exact hu

end RegularLanguages.Automaton
