import RegularLanguages.Proofs.Automaton.Lookup
import RegularLanguages.Proofs.Automaton.Verdict

/-!
# Look-ups in the search for a distinguishing word

The search reads the tables of both sides at the place of each joint symbol, makes steps on the sets
of its nodes, and follows the parents of a node back to the start. Here each of these look-ups can
fail, a parent that is no earlier node included.

`Placed` is the invariant: the sets of the nodes hold states, the symbols to be tried have places in
the joint alphabet, and a parent is an earlier node. A move keeps it (`Placed.of_move`) and finds
everything that it looks up under it (`Placed.move?_eq`), so the whole search does.
-/

namespace RegularLanguages.Automaton

variable {a b : Automaton} {s t : Search}

/-! ## The search with look-ups that can fail -/

/-- The states after the symbol at place `i` of the joint alphabet. -/
def Side.step? (side : Side) (states : StateSet) (i : Nat) : Option StateSet :=
  side.table[i]?.bind fun entry =>
    match entry with
    | some id => if states.isEmpty then some ∅ else side.automaton.step? states id
    | none => some ∅

/-- The characters that lead to a node, last one first. -/
def lettersTo? (nodes : Array Node) (i : Nat) : Option (List Char) :=
  match nodes[i]? with
  | some node =>
    match node.parent with
    | some (parent, c) => if parent < i then (lettersTo? nodes parent).map (c :: ·) else none
    | none => some []
  | none => none

/-- The word by which a node was found. -/
def wordTo? (nodes : Array Node) (i : Nat) : Option String :=
  (lettersTo? nodes i).map fun letters => String.ofList letters.reverse

namespace Pairing

/-- The node of the empty word. -/
def root? (p : Pairing) : Option Node :=
  (p.left.automaton.closureOf? p.left.automaton.start).bind fun left =>
    (p.right.automaton.closureOf? p.right.automaton.start).map fun right => ⟨left, right, none⟩

/-- The node that a symbol leads to. -/
def child? (p : Pairing) (i : Nat) (node : Node) (c : Char) (place : Nat) : Option Node :=
  (p.left.step? node.left place).bind fun left =>
    (p.right.step? node.right place).map fun right => ⟨left, right, some (i, c)⟩

/-- One move. -/
def move? (p : Pairing) (s : Search) : Option (Except Verdict Search) :=
  match s.pending with
  | [] => some (p.move s)
  | (c, place) :: rest =>
    s.nodes[s.current]?.bind fun node =>
      (p.child? s.current node c place).bind fun next =>
        if s.seen.contains next.key then some (.ok { s with pending := rest })
        else
          let more := s.nodes.push next
          if p.disagrees next then
            (wordTo? more s.nodes.size).map fun word => .error (.counterexample word)
          else some (.ok ⟨more, s.seen.insert next.key, s.current, rest⟩)

theorem move?_decreases {p : Pairing} (h : p.move? s = some (.ok t)) :
    t.current = s.current ∧ t.pending.length < s.pending.length ∨
      p.pairBound - t.current < p.pairBound - s.current := by
  unfold move? at h
  split at h
  · exact move_decreases (Option.some.inj h)
  · next c place rest hpending =>
    obtain ⟨node, -, h⟩ := Option.bind_eq_some_iff.mp h
    obtain ⟨next, -, h⟩ := Option.bind_eq_some_iff.mp h
    left
    rw [hpending]
    split at h
    · obtain rfl := Except.ok.inj (Option.some.inj h)
      exact ⟨rfl, Nat.lt_succ_self _⟩
    · split at h
      · obtain ⟨word, -, h⟩ := Option.map_eq_some_iff.mp h
        cases h
      · obtain rfl := Except.ok.inj (Option.some.inj h)
        exact ⟨rfl, Nat.lt_succ_self _⟩

/-- Moves until the outcome is known. -/
def run? (p : Pairing) (s : Search) : Option Verdict :=
  match _h : p.move? s with
  | none => none
  | some (.error verdict) => some verdict
  | some (.ok next) => run? p next
termination_by (p.pairBound - s.current, s.pending.length)
decreasing_by
  rcases move?_decreases _h with ⟨hc, hp⟩ | hc
  · rw [hc]
    exact Prod.Lex.right _ hp
  · exact Prod.Lex.left _ _ hc

theorem run?_of_move? {p : Pairing} {outcome : Except Verdict Search}
    (h : p.move? s = some outcome) :
    p.run? s =
      match outcome with
      | .error verdict => some verdict
      | .ok next => p.run? next := by
  rw [run?]
  split
  · next heq => cases h.symm.trans heq
  · next heq =>
    cases h.symm.trans heq
    rfl
  · next heq =>
    cases h.symm.trans heq
    rfl

end Pairing

/-- Decides whether two automata accept the same words. -/
def equivalent? (a b : Automaton) : Option Verdict :=
  let p := pairing a b
  p.root?.bind fun root =>
    if p.disagrees root then some (.counterexample "")
    else p.run? ⟨#[root], (∅ : Std.HashSet Key).insert root.key, 0, p.symbols⟩

/-! ## What is looked up -/

theorem holds_empty (m : Automaton) : m.Holds ∅ := by
  intro q hq
  rw [StateSet.contains_empty] at hq
  cases hq

theorem holds_sideStep (m : Automaton) (alphabet : Alphabet) (states : StateSet) (i : Nat) :
    m.Holds ((m.side alphabet).step states i) := by
  unfold Side.step
  split
  · split
    · exact holds_empty m
    · exact holds_closureFrom m _
  · exact holds_empty m

/-- **Every place of the joint alphabet has an entry in the table.** -/
theorem WellFormed.sideStep?_eq {m : Automaton} (hm : m.WellFormed) {alphabet : Alphabet}
    {states : StateSet} (hstates : m.Holds states) {i : Nat} (hi : i < alphabet.size) :
    (m.side alphabet).step? states i = some ((m.side alphabet).step states i) := by
  have hsize : i < (m.side alphabet).table.size := by
    simpa [side, Alphabet.renumbering, Alphabet.size] using hi
  have hget := Array.getElem?_eq_getElem hsize
  rw [Side.step?, Side.step, Array.getD_eq_getD_getElem?, hget, Option.bind_some, Option.getD_some]
  cases (m.side alphabet).table[i] with
  | none => rfl
  | some id =>
    by_cases hempty : states.isEmpty = true
    · simp only [if_pos hempty]
    · simp only [if_neg hempty]
      exact hm.step?_eq hstates id

/-- The sets of the nodes hold states, each symbol to be tried has a place, and a parent is an
earlier node. -/
structure Placed (a b : Automaton) (s : Search) : Prop where
  current_lt : s.current < s.nodes.size
  pending_sub : s.pending ⊆ (pairing a b).symbols
  left : ∀ node ∈ s.nodes, a.Holds node.left
  right : ∀ node ∈ s.nodes, b.Holds node.right
  parent_lt : ∀ (i : Nat) (node : Node), s.nodes[i]? = some node →
    ∀ link, node.parent = some link → link.1 < i

/-- **A node is traced back to the start** if parents are earlier nodes. -/
theorem lettersTo?_eq {nodes : Array Node}
    (hparent : ∀ (i : Nat) (node : Node), nodes[i]? = some node →
      ∀ link, node.parent = some link → link.1 < i) {i : Nat} (hi : i < nodes.size) :
    lettersTo? nodes i = some (lettersTo nodes i) := by
  induction i using Nat.strongRecOn with
  | ind i ih =>
    have hnode := Array.getElem?_eq_getElem hi
    rw [lettersTo?, lettersTo, hnode]
    cases hlink : nodes[i].parent with
    | none => simp only [hlink]
    | some link =>
      obtain ⟨parent, c⟩ := link
      have hlt : parent < i := hparent i _ hnode _ hlink
      simp only [hlink, if_pos hlt, ih parent hlt (Nat.lt_trans hlt hi), Option.map_some]

namespace Placed

theorem place_lt (h : Placed a b s) {c : Char} {place : Nat} (hc : (c, place) ∈ s.pending) :
    place < (a.alphabet.union b.alphabet).size := by
  have hmem : (c, place) ∈ (a.alphabet.union b.alphabet).symbols.zipIdx := h.pending_sub hc
  exact (List.getElem?_eq_some_iff.mp (List.mk_mem_zipIdx_iff_getElem?.mp hmem)).1

theorem child?_eq (h : Placed a b s) (ha : a.WellFormed) (hb : b.WellFormed) {node : Node}
    (hnode : node ∈ s.nodes) {c : Char} {place : Nat} (hc : (c, place) ∈ s.pending) (i : Nat) :
    (pairing a b).child? i node c place = some ((pairing a b).child i node c place) := by
  have hleft := ha.sideStep?_eq (h.left node hnode) (h.place_lt hc)
  have hright := hb.sideStep?_eq (h.right node hnode) (h.place_lt hc)
  simp only [pairing] at hleft hright ⊢
  rw [Pairing.child?, hleft, hright]
  rfl

/-- Going on to the next node. -/
theorem advance (h : Placed a b s) (hlt : s.current + 1 < s.nodes.size) :
    Placed a b ⟨s.nodes, s.seen, s.current + 1, (pairing a b).symbols⟩ :=
  ⟨hlt, List.Subset.refl _, h.left, h.right, h.parent_lt⟩

/-- Passing over a pair that is recorded. -/
theorem skip (h : Placed a b s) {rest : List (Char × Nat)} (hrest : rest ⊆ s.pending) :
    Placed a b ⟨s.nodes, s.seen, s.current, rest⟩ :=
  ⟨h.current_lt, List.Subset.trans hrest h.pending_sub, h.left, h.right, h.parent_lt⟩

/-- Recording a child of the current node. -/
theorem record (h : Placed a b s) {rest : List (Char × Nat)} (hrest : rest ⊆ s.pending)
    (node : Node) (c : Char) (place : Nat) (seen : Std.HashSet Key) :
    Placed a b
      ⟨s.nodes.push ((pairing a b).child s.current node c place), seen, s.current, rest⟩ where
  current_lt := by
    rw [Array.size_push]
    exact Nat.lt_succ_of_lt h.current_lt
  pending_sub := List.Subset.trans hrest h.pending_sub
  left found hfound := by
    rcases Array.mem_push.mp hfound with hfound | rfl
    · exact h.left found hfound
    · exact holds_sideStep a _ node.left place
  right found hfound := by
    rcases Array.mem_push.mp hfound with hfound | rfl
    · exact h.right found hfound
    · exact holds_sideStep b _ node.right place
  parent_lt i found hfound link hlink := by
    rw [Array.getElem?_push] at hfound
    split at hfound
    · -- the parent of the new node is the current one
      next heq =>
      obtain rfl := Option.some.inj hfound
      obtain rfl := Option.some.inj hlink
      exact heq ▸ h.current_lt
    · exact h.parent_lt i found hfound link hlink

/-- A move keeps the search placed. -/
theorem of_move (h : Placed a b s) (hmove : (pairing a b).move s = .ok t) : Placed a b t := by
  cases Pairing.moved_of_move hmove with
  | advance hp hlt => exact h.advance hlt
  | skip hp hnode hseen => exact h.skip (hp ▸ List.subset_cons_self _ _)
  | record hp hnode hnew hagrees =>
    exact h.record (hp ▸ List.subset_cons_self _ _) _ _ _ _

/-- **A move finds everything that it looks up**, also the parents on the way back to the start when
it answers with a word. -/
theorem move?_eq (h : Placed a b s) (ha : a.WellFormed) (hb : b.WellFormed) :
    (pairing a b).move? s = some ((pairing a b).move s) := by
  cases hp : s.pending with
  | nil => rw [Pairing.move?, hp]
  | cons symbol rest =>
    obtain ⟨c, place⟩ := symbol
    have hcurrent := h.current_lt
    have hget := Array.getElem?_eq_getElem hcurrent
    have hchild := h.child?_eq ha hb (Array.getElem_mem hcurrent)
      (hp ▸ List.mem_cons_self) s.current
    rw [move_of_cons _ hp hget]
    simp only [Pairing.move?, hp, hget, hchild, Option.bind_some]
    split
    · rfl
    · split
      · have hrest : rest ⊆ s.pending := hp ▸ List.subset_cons_self _ rest
        have hrecord := h.record hrest s.nodes[s.current] c place s.seen
        have hword := lettersTo?_eq hrecord.parent_lt
          (i := s.nodes.size) (by rw [Array.size_push]; exact Nat.lt_succ_self _)
        rw [wordTo?, hword]
        rfl
      · rfl

theorem run?_eq (h : Placed a b s) (ha : a.WellFormed) (hb : b.WellFormed) :
    (pairing a b).run? s = some ((pairing a b).run s) := by
  fun_induction Pairing.run (pairing a b) s with
  | case1 s verdict hmove =>
    rw [Pairing.run?_of_move? ((h.move?_eq ha hb).trans (congrArg some hmove))]
  | case2 s t hmove ih =>
    rw [Pairing.run?_of_move? ((h.move?_eq ha hb).trans (congrArg some hmove))]
    exact ih (h.of_move hmove)

end Placed

theorem placed_start (a b : Automaton) : Placed a b (pairing a b).start where
  current_lt := Nat.zero_lt_one
  pending_sub := List.Subset.refl _
  left node hnode := by
    obtain rfl : node = (pairing a b).root := by simpa [Pairing.start] using hnode
    exact holds_closureFrom a _
  right node hnode := by
    obtain rfl : node = (pairing a b).root := by simpa [Pairing.start] using hnode
    exact holds_closureFrom b _
  parent_lt i node hnode link hlink := by
    have hmem := Array.mem_of_getElem? hnode
    obtain rfl : node = (pairing a b).root := by simpa [Pairing.start] using hmem
    cases hlink

/-- **The whole search finds everything that it looks up.** -/
theorem WellFormed.equivalent?_eq (ha : a.WellFormed) (hb : b.WellFormed) :
    a.equivalent? b = some (a.equivalent b) := by
  have hroot : (pairing a b).root? = some (pairing a b).root := by
    have hleft := ha.closureOf?_eq ha.start_lt
    have hright := hb.closureOf?_eq hb.start_lt
    simp only [Pairing.root?, pairing, side, hleft, hright, Option.bind_some, Option.map_some]
    rfl
  unfold equivalent? equivalent
  simp only [hroot, Option.bind_some]
  split
  · rfl
  · exact (placed_start a b).run?_eq ha hb

end RegularLanguages.Automaton
