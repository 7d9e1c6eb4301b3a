import Std.Data.HashSet
import RegularLanguages.Automaton.Run

/-!
# Equivalence of automata

Decides whether two automata accept the same words. If they do not, the answer is the first word on
which they differ: the shortest, and among those the least in the order of code points.

## Mechanism

Both automata read the same word at the same time. A node is the pair of closed state sets that
they reach; node 0 belongs to the empty word. The nodes are expanded in the order in which they were
found, and for each node the symbols of the joint alphabet are tried in order. So the nodes are
found in the order of their words, by length and then by code points, and the first node on which
exactly one side accepts gives the first distinguishing word. A pair that was found before is not a
new node.

A symbol that one of the automata does not know leads that side to the empty set, which it never
leaves.

## Termination

A move tries one more symbol on a node, or goes on to the next node. There are no more nodes than
pairs of state sets. `pairBound` is the number of those pairs, and the search does not go on past
it.
-/

namespace RegularLanguages

/-- The outcome of an equivalence check. -/
inductive Verdict where
  /-- Both automata accept the same words. -/
  | equal
  /-- A word that exactly one of the automata accepts. -/
  | counterexample (word : String)
  deriving DecidableEq, Repr

/-- Whether the automata accept the same words. -/
def Verdict.isEqual : Verdict → Bool
  | .equal => true
  | .counterexample _ => false

/-- The distinguishing word, if there is one. -/
def Verdict.counterexample? : Verdict → Option String
  | .equal => none
  | .counterexample word => some word

namespace Automaton

/-! ## One side of the search -/

/-- An automaton with the table that takes the places of the joint alphabet to its own symbols. -/
structure Side where
  automaton : Automaton
  table : Array (Option Nat)

/-- The side of an automaton in a search over an alphabet. -/
def side (m : Automaton) (alphabet : Alphabet) : Side := ⟨m, alphabet.renumbering m.alphabet⟩

/-- The states after the symbol at place `i` of the joint alphabet. -/
def Side.step (side : Side) (states : StateSet) (i : Nat) : StateSet :=
  match side.table.getD i none with
  | some id => if states.isEmpty then ∅ else side.automaton.step states id
  | none => ∅

/-- Two automata side by side, with the symbols of the joint alphabet and their places. -/
structure Pairing where
  left : Side
  right : Side
  symbols : List (Char × Nat)

/-- The two sides of a search. -/
def pairing (a b : Automaton) : Pairing :=
  let alphabet := a.alphabet.union b.alphabet
  ⟨a.side alphabet, b.side alphabet, alphabet.symbols.zipIdx⟩

/-! ## Nodes -/

/-- A pair of state sets, with the node and the symbol that it was first found by. -/
structure Node where
  left : StateSet
  right : StateSet
  parent : Option (Nat × Char)

/-- What tells two nodes apart: the members of the two sets. -/
abbrev Key := List Nat × List Nat

/-- The key of a node. -/
def Node.key (node : Node) : Key := (node.left.toList, node.right.toList)

/-- The characters that lead to a node, last one first. A parent has a smaller number than its
child. -/
def lettersTo (nodes : Array Node) (i : Nat) : List Char :=
  match nodes[i]? with
  | some node =>
    match node.parent with
    | some (parent, c) => if parent < i then c :: lettersTo nodes parent else []
    | none => []
  | none => []

/-- The word by which a node was found. -/
def wordTo (nodes : Array Node) (i : Nat) : String := String.ofList (lettersTo nodes i).reverse

/-! ## Search -/

/-- A search at one of its moments: the nodes so far, their keys, the node that is being expanded
and the symbols that are still to be tried on it. -/
structure Search where
  nodes : Array Node
  seen : Std.HashSet Key
  current : Nat
  pending : List (Char × Nat)

namespace Pairing

/-- Whether exactly one side accepts. -/
def disagrees (p : Pairing) (node : Node) : Bool :=
  p.left.automaton.acceptsAny node.left != p.right.automaton.acceptsAny node.right

/-- The node of the empty word. -/
def root (p : Pairing) : Node :=
  ⟨p.left.automaton.startClosure, p.right.automaton.startClosure, none⟩

/-- The node that a symbol leads to. -/
def child (p : Pairing) (i : Nat) (node : Node) (c : Char) (place : Nat) : Node :=
  ⟨p.left.step node.left place, p.right.step node.right place, some (i, c)⟩

/-- How many pairs of state sets there are. -/
def pairBound (p : Pairing) : Nat :=
  Nat.pow 2 (p.left.automaton.numStates + p.right.automaton.numStates)

/-- The search before its first move. -/
def start (p : Pairing) : Search :=
  ⟨#[p.root], (∅ : Std.HashSet Key).insert p.root.key, 0, p.symbols⟩

/-- One move: tries the next symbol, or goes on to the next node. The outcome is reported as soon as
it is known. -/
def move (p : Pairing) : Search → Except Verdict Search
  | ⟨nodes, seen, current, []⟩ =>
    if current + 1 < nodes.size ∧ current + 1 < p.pairBound then
      .ok ⟨nodes, seen, current + 1, p.symbols⟩
    else .error .equal
  | ⟨nodes, seen, current, (c, place) :: rest⟩ =>
    match nodes[current]? with
    | none => .error .equal
    | some node =>
      let next := p.child current node c place
      if seen.contains next.key then .ok ⟨nodes, seen, current, rest⟩
      else
        let number := nodes.size
        let more := nodes.push next
        if p.disagrees next then .error (.counterexample (wordTo more number))
        else .ok ⟨more, seen.insert next.key, current, rest⟩

/-- A move tries a symbol of the same node or goes on to a later one within the bound. -/
theorem move_decreases {p : Pairing} {s t : Search} (h : p.move s = .ok t) :
    t.current = s.current ∧ t.pending.length < s.pending.length ∨
      p.pairBound - t.current < p.pairBound - s.current := by
  obtain ⟨nodes, seen, current, pending⟩ := s
  cases pending with
  | nil =>
    simp only [move] at h
    split at h
    · next hlt =>
      obtain rfl := Except.ok.inj h
      right
      simp only
      omega
    · cases h
  | cons symbol rest =>
    obtain ⟨c, place⟩ := symbol
    left
    simp only [move] at h
    split at h
    · cases h
    · split at h
      · obtain rfl := Except.ok.inj h
        exact ⟨rfl, by simp⟩
      · split at h
        · cases h
        · obtain rfl := Except.ok.inj h
          exact ⟨rfl, by simp⟩

/-- Moves until the outcome is known. -/
def run (p : Pairing) (s : Search) : Verdict :=
  match _h : p.move s with
  | .error verdict => verdict
  | .ok next => run p next
termination_by (p.pairBound - s.current, s.pending.length)
decreasing_by
  rcases move_decreases _h with ⟨hc, hp⟩ | hc
  · rw [hc]
    exact Prod.Lex.right _ hp
  · exact Prod.Lex.left _ _ hc

end Pairing

/-- Decides whether two automata accept the same words. -/
def equivalent (a b : Automaton) : Verdict :=
  let p := pairing a b
  if p.disagrees p.root then .counterexample "" else p.run p.start

end Automaton

end RegularLanguages
