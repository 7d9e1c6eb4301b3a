import Std.Data.HashMap
import RegularLanguages.Proofs.Automaton.PairLookup

/-!
# The search ends

Here the search for a distinguishing word is a loop over a queue of nodes: the first node is taken
out, its new children are put at the end, and a node on which the automata differ is traced back to
the start. Nothing bounds the loop and nothing guards the way back, so it has to be proved that
either of them ends. `Traces`, `Runs` and `Searches` are the runs that end.

`Reached` is the invariant. No two nodes have sets with the same members, and the sets hold only
states, so there are no more nodes than pairs of sets of states (`Grown.size_le`). The nodes that
wait are the ones from the number of turns on (`Reached.queue`). So every turn takes out the next
node and brings the loop closer to its end, although the queue may become longer.
-/

namespace RegularLanguages.Automaton

/-! ## The loop -/

/-- The nodes so far, the numbers of the recorded pairs, and the nodes that wait, with their
numbers. -/
structure Worklist where
  nodes : Array Node
  seen : Std.HashMap Key Nat
  queue : List (Node × Nat)

/-- The node of the empty word waits. -/
def Worklist.start (p : Pairing) : Worklist :=
  ⟨#[p.root], (∅ : Std.HashMap Key Nat).insert p.root.key 0, [(p.root, 0)]⟩

/-- Records a node and puts it at the end of the queue. -/
def Worklist.add (w : Worklist) (node : Node) : Worklist :=
  ⟨w.nodes.push node, w.seen.insert node.key w.nodes.size, w.queue ++ [(node, w.nodes.size)]⟩

/-- Tries symbols on the node with the given number. The outcome is an error when the automata
differ on a new node: the nodes with that one, and its number. -/
def Pairing.tryAll (p : Pairing) (i : Nat) (node : Node) :
    List (Char × Nat) → Worklist → Except (Array Node × Nat) Worklist
  | [], w => .ok w
  | (c, place) :: rest, w =>
    let next := p.child i node c place
    if w.seen.contains next.key then p.tryAll i node rest w
    else if p.disagrees next then .error (w.nodes.push next, w.nodes.size)
    else p.tryAll i node rest (w.add next)

/-- The way from a node to its parent and on, until a node has no parent: the letters on the way,
and the node at its end. -/
inductive Traces (nodes : Array Node) : Nat → List Char → Nat → Prop
  | stop {i : Nat} {node : Node} (hnode : nodes[i]? = some node) (hlink : node.parent = none) :
      Traces nodes i [] i
  | up {i parent last : Nat} {node : Node} {c : Char} {letters : List Char}
      (hnode : nodes[i]? = some node) (hlink : node.parent = some (parent, c))
      (hrest : Traces nodes parent letters last) : Traces nodes i (c :: letters) last

/-- The loop: the numbers of the nodes that are taken out, in this order, all nodes that are made,
and the verdict. -/
inductive Runs (p : Pairing) : Worklist → List Nat → Array Node → Verdict → Prop
  | empty {w : Worklist} (hqueue : w.queue = []) : Runs p w [] w.nodes .equal
  | found {w : Worklist} {node : Node} {i number last : Nat} {rest : List (Node × Nat)}
      {nodes : Array Node} {letters : List Char} (hqueue : w.queue = (node, i) :: rest)
      (htry : p.tryAll i node p.symbols { w with queue := rest } = .error (nodes, number))
      (htrace : Traces nodes number letters last) :
      Runs p w [i] nodes (.counterexample (String.ofList letters.reverse))
  | next {w w' : Worklist} {node : Node} {i : Nat} {rest : List (Node × Nat)} {taken : List Nat}
      {nodes : Array Node} {verdict : Verdict} (hqueue : w.queue = (node, i) :: rest)
      (htry : p.tryAll i node p.symbols { w with queue := rest } = .ok w')
      (hrest : Runs p w' taken nodes verdict) : Runs p w (i :: taken) nodes verdict

/-- The whole search. It makes no nodes if the automata differ on the empty word. -/
inductive Searches (a b : Automaton) : List Nat → Array Node → Verdict → Prop
  | root (h : (pairing a b).disagrees (pairing a b).root = true) :
      Searches a b [] #[] (.counterexample "")
  | loop {taken : List Nat} {nodes : Array Node} {verdict : Verdict}
      (h : (pairing a b).disagrees (pairing a b).root = false)
      (hruns : Runs (pairing a b) (.start (pairing a b)) taken nodes verdict) :
      Searches a b taken nodes verdict

/-! ## The nodes -/

variable {a b : Automaton} {p : Pairing} {nodes : Array Node} {w : Worklist}

/-- What is known of the nodes: the sets hold states, no two nodes have the same pair of sets, a
parent is an earlier node, and only the first node has none. -/
structure Grown (a b : Automaton) (nodes : Array Node) : Prop where
  left : ∀ node ∈ nodes, a.Holds node.left
  right : ∀ node ∈ nodes, b.Holds node.right
  distinct : ∀ (i j : Nat) (m n : Node), nodes[i]? = some m → nodes[j]? = some n →
    m.key = n.key → i = j
  parent_lt : ∀ (i : Nat) (node : Node), nodes[i]? = some node →
    ∀ link, node.parent = some link → link.1 < i
  root : ∀ (i : Nat) (node : Node), nodes[i]? = some node → node.parent = none → i = 0

namespace Grown

theorem empty (a b : Automaton) : Grown a b #[] where
  left _ h := by simp at h
  right _ h := by simp at h
  distinct _ _ _ _ h := by simp at h
  parent_lt _ _ h := by simp at h
  root _ _ h := by simp at h

theorem start (a b : Automaton) : Grown a b (Worklist.start (pairing a b)).nodes := by
  have hplaced := placed_start a b
  refine ⟨hplaced.left, hplaced.right, ?_, hplaced.parent_lt, ?_⟩
  · intro i j m n hi hj _
    rw [(getElem?_singleton_eq_some.mp hi).1, (getElem?_singleton_eq_some.mp hj).1]
  · intro i node hi _
    exact (getElem?_singleton_eq_some.mp hi).1

/-- A new pair is recorded as a child of a node. -/
theorem push (h : Grown a b nodes) {i : Nat} (hi : i < nodes.size) (node : Node) (c : Char)
    (place : Nat)
    (hnew : ∀ old ∈ nodes, old.key ≠ ((pairing a b).child i node c place).key) :
    Grown a b (nodes.push ((pairing a b).child i node c place)) := by
  have hplaced : Placed a b ⟨nodes, ∅, i, []⟩ :=
    ⟨hi, List.nil_subset _, h.left, h.right, h.parent_lt⟩
  have hrecord := hplaced.record (List.Subset.refl _) node c place ∅
  refine ⟨hrecord.left, hrecord.right, ?distinct, hrecord.parent_lt, ?root⟩
  case distinct =>
    intro j k m n hm hn hkey
    rcases getElem?_push_eq_some.mp hm with hm | ⟨rfl, rfl⟩ <;>
      rcases getElem?_push_eq_some.mp hn with hn | ⟨rfl, rfl⟩
    · exact h.distinct j k m n hm hn hkey
    · exact absurd hkey (hnew m (Array.mem_of_getElem? hm))
    · exact absurd hkey.symm (hnew n (Array.mem_of_getElem? hn))
    · rfl
  case root =>
    intro j found hfound hlink
    rcases getElem?_push_eq_some.mp hfound with hfound | ⟨rfl, rfl⟩
    · exact h.root j found hfound hlink
    · cases hlink

/-- **There are no more nodes than pairs of sets of states.** -/
theorem size_le (h : Grown a b nodes) : nodes.size ≤ (pairing a b).pairBound := by
  refine le_pairBound_of_distinct (fun i => (nodes.getD i (pairing a b).root).left)
    (fun i => (nodes.getD i (pairing a b).root).right) ?_ ?_ ?_
  · intro i hi
    simp only [Array.getD_eq_getD_getElem?, Array.getElem?_eq_getElem hi, Option.getD_some]
    exact h.left _ (Array.getElem_mem hi)
  · intro i hi
    simp only [Array.getD_eq_getD_getElem?, Array.getElem?_eq_getElem hi, Option.getD_some]
    exact h.right _ (Array.getElem_mem hi)
  · intro i hi j hj hl hr
    have hgi := Array.getElem?_eq_getElem hi
    have hgj := Array.getElem?_eq_getElem hj
    simp only [Array.getD_eq_getD_getElem?, hgi, hgj, Option.getD_some] at hl hr
    exact h.distinct i j _ _ hgi hgj (Prod.ext hl hr)

/-- **The way back from a node ends at the first node.** Each parent is an earlier node, so the
induction is on the number of the node. -/
theorem traces (h : Grown a b nodes) {i : Nat} (hi : i < nodes.size) :
    Traces nodes i (lettersTo nodes i) 0 := by
  induction i using Nat.strongRecOn with
  | ind i ih =>
    have hnode := Array.getElem?_eq_getElem hi
    rw [lettersTo, hnode]
    cases hlink : nodes[i].parent with
    | none =>
      simp only [hlink]
      obtain rfl := h.root i _ hnode hlink
      exact .stop hnode hlink
    | some link =>
      obtain ⟨parent, c⟩ := link
      have hlt : parent < i := h.parent_lt i _ hnode _ hlink
      simp only [hlink, if_pos hlt]
      exact .up hnode hlink (ih parent hlt (Nat.lt_trans hlt hi))

/-- The letters on the way back are the ones that lead to the node. -/
theorem letters_eq (h : Grown a b nodes) {i last : Nat} {letters : List Char}
    (htrace : Traces nodes i letters last) : letters = lettersTo nodes i := by
  induction htrace with
  | stop hnode hlink => rw [lettersTo, hnode]; simp only [hlink]
  | up hnode hlink _ ih =>
    rw [lettersTo, hnode]
    simp only [hlink, if_pos (h.parent_lt _ _ hnode _ hlink), ih]

end Grown

/-! ## The invariant -/

/-- What is known before a turn of the loop, when the given number of nodes were taken out. -/
structure Reached (a b : Automaton) (w : Worklist) (done : Nat) : Prop where
  grown : Grown a b w.nodes
  done_le : done ≤ w.nodes.size
  seen : ∀ key, w.seen.contains key = true ↔ ∃ node ∈ w.nodes, node.key = key
  queue : w.queue = w.nodes.toList.zipIdx.drop done

namespace Reached

variable {done : Nat}

theorem start (a b : Automaton) : Reached a b (.start (pairing a b)) 0 where
  grown := Grown.start a b
  done_le := Nat.zero_le _
  seen key := by simp [Worklist.start]
  queue := rfl

theorem queue_eq_nil (h : Reached a b w done) : w.queue = [] ↔ w.nodes.size ≤ done := by
  rw [h.queue, List.drop_eq_nil_iff, List.length_zipIdx, Array.length_toList]

/-- **The node that is taken out is the next one.** -/
theorem take (h : Reached a b w done) {node : Node} {i : Nat} {rest : List (Node × Nat)}
    (hqueue : w.queue = (node, i) :: rest) :
    i = done ∧ w.nodes[done]? = some node ∧ Reached a b { w with queue := rest } (done + 1) := by
  have hlt : done < w.nodes.size := by
    refine Nat.lt_of_not_le fun hle => ?_
    rw [h.queue_eq_nil.mpr hle] at hqueue
    cases hqueue
  have hdrop := h.queue
  rw [List.drop_eq_getElem_cons (by simpa using hlt), hqueue] at hdrop
  obtain ⟨hfirst, hrest⟩ := List.cons.inj hdrop
  rw [List.getElem_zipIdx] at hfirst
  obtain ⟨hnode, hi⟩ := Prod.mk.inj hfirst
  refine ⟨by simpa using hi, ?_, ⟨h.grown, hlt, h.seen, hrest⟩⟩
  rw [hnode, Array.getElem_toList]
  exact Array.getElem?_eq_getElem hlt

/-- A new pair is recorded, and waits behind the other nodes. -/
theorem add (h : Reached a b w done) {i : Nat} (hi : i < w.nodes.size) {node : Node} {c : Char}
    {place : Nat} (hnew : ¬ w.seen.contains ((pairing a b).child i node c place).key = true) :
    Reached a b (w.add ((pairing a b).child i node c place)) done where
  grown := h.grown.push hi node c place fun old hold hkey =>
    hnew ((h.seen _).mpr ⟨old, hold, hkey⟩)
  done_le := by
    have hle := h.done_le
    simp only [Worklist.add, Array.size_push]
    omega
  seen key := by
    simp only [Worklist.add, Std.HashMap.contains_insert, Bool.or_eq_true, beq_iff_eq, h.seen,
      Array.mem_push]
    constructor
    · rintro (hkey | ⟨old, hold, hkey⟩)
      · exact ⟨_, Or.inr rfl, hkey⟩
      · exact ⟨old, Or.inl hold, hkey⟩
    · rintro ⟨old, hold | rfl, hkey⟩
      · exact Or.inr ⟨old, hold, hkey⟩
      · exact Or.inl hkey
  queue := by
    have hle : done ≤ w.nodes.toList.zipIdx.length := by simpa using h.done_le
    simp only [Worklist.add, Array.toList_push, List.zipIdx_append, List.drop_append_of_le_length hle,
      h.queue]
    simp

/-- What trying symbols keeps: the invariant, or what is known of the nodes. -/
theorem tryAll (h : Reached a b w done) {i : Nat} (hi : i < w.nodes.size) (node : Node)
    (symbols : List (Char × Nat)) :
    match (pairing a b).tryAll i node symbols w with
    | .ok w' => Reached a b w' done
    | .error (nodes, number) => Grown a b nodes ∧ number < nodes.size ∧ done ≤ nodes.size := by
  induction symbols generalizing w with
  | nil => exact h
  | cons symbol rest ih =>
    obtain ⟨c, place⟩ := symbol
    rw [Pairing.tryAll]
    by_cases hseen : w.seen.contains ((pairing a b).child i node c place).key = true
    · simp only [if_pos hseen]
      exact ih h hi
    · have hadd := h.add hi hseen
      have hsize : (w.add ((pairing a b).child i node c place)).nodes.size = w.nodes.size + 1 :=
        Array.size_push _
      simp only [if_neg hseen]
      cases hdis : (pairing a b).disagrees ((pairing a b).child i node c place) with
      | true =>
        simp only [if_true]
        exact ⟨hadd.grown, hsize ▸ Nat.lt_succ_self _, hadd.done_le⟩
      | false => exact ih hadd (by omega)

/-- **A turn of the loop** takes out the next node and keeps the invariant, or ends the loop. -/
theorem turn (h : Reached a b w done) {node : Node} {i : Nat} {rest : List (Node × Nat)}
    (hqueue : w.queue = (node, i) :: rest) :
    match (pairing a b).tryAll i node (pairing a b).symbols { w with queue := rest } with
    | .ok w' => Reached a b w' (done + 1)
    | .error (nodes, number) => Grown a b nodes ∧ number < nodes.size ∧ done + 1 ≤ nodes.size := by
  obtain ⟨rfl, hnode, htake⟩ := h.take hqueue
  exact htake.tryAll (Array.getElem?_eq_some_iff.mp hnode).1 node _

end Reached

/-! ## Runs -/

/-- **What a run does**: it takes out the nodes in the order of their numbers, and no others. -/
theorem Runs.spec {taken : List Nat} {verdict : Verdict}
    (hruns : Runs (pairing a b) w taken nodes verdict) {done : Nat} (h : Reached a b w done) :
    Grown a b nodes ∧ taken = List.range' done taken.length ∧
      done + taken.length ≤ nodes.size := by
  induction hruns generalizing done with
  | empty => exact ⟨h.grown, rfl, h.done_le⟩
  | found hqueue htry =>
    have hturn := h.turn hqueue
    rw [htry] at hturn
    obtain ⟨hgrown, -, hle⟩ := hturn
    obtain ⟨rfl, -⟩ := h.take hqueue
    exact ⟨hgrown, rfl, hle⟩
  | next hqueue htry _ ih =>
    have hturn := h.turn hqueue
    rw [htry] at hturn
    obtain ⟨hgrown, htaken, hle⟩ := ih hturn
    obtain ⟨rfl, -⟩ := h.take hqueue
    refine ⟨hgrown, ?_, ?_⟩
    · rw [List.length_cons, List.range'_succ, ← htaken]
    · rw [List.length_cons]
      omega

/-- **The loop ends.** With each turn one node less is left of those that there can be. -/
theorem Reached.exists_runs {done : Nat} (h : Reached a b w done) :
    ∃ taken nodes verdict, Runs (pairing a b) w taken nodes verdict := by
  induction hleft : (pairing a b).pairBound - done using Nat.strongRecOn generalizing w done with
  | ind left ih =>
    cases hqueue : w.queue with
    | nil => exact ⟨[], w.nodes, .equal, .empty hqueue⟩
    | cons first rest =>
      obtain ⟨node, i⟩ := first
      have hturn := h.turn hqueue
      cases htry : (pairing a b).tryAll i node (pairing a b).symbols { w with queue := rest } with
      | error found =>
        obtain ⟨nodes, number⟩ := found
        rw [htry] at hturn
        obtain ⟨hgrown, hnumber, -⟩ := hturn
        exact ⟨_, _, _, .found hqueue htry (hgrown.traces hnumber)⟩
      | ok w' =>
        rw [htry] at hturn
        have hlt : done + 1 ≤ (pairing a b).pairBound :=
          Nat.le_trans (h.take hqueue).2.2.done_le h.grown.size_le
        obtain ⟨taken, nodes, verdict, hruns⟩ := ih _ (by omega) hturn rfl
        exact ⟨_, _, _, .next hqueue htry hruns⟩

/-! ## The verdict of a run -/

namespace Pairing

theorem run_of_error {s : Search} {verdict : Verdict} (h : p.move s = .error verdict) :
    p.run s = verdict := by
  rw [run]
  split
  · next heq => exact Except.error.inj (heq.symm.trans h)
  · next heq => cases heq.symm.trans h

theorem run_of_ok {s t : Search} (h : p.move s = .ok t) : p.run s = p.run t := by
  rw [run]
  split
  · next heq => cases heq.symm.trans h
  · next heq => rw [Except.ok.inj (heq.symm.trans h)]

/-- The verdict of a search that goes on with the given node, if there is one. -/
def runFrom (p : Pairing) (nodes : Array Node) (seen : Std.HashSet Key) (i : Nat) : Verdict :=
  if i < nodes.size then p.run ⟨nodes, seen, i, p.symbols⟩ else .equal

/-- The bound of the search does not cut it short if there are no more nodes. -/
theorem run_eq_runFrom (hsize : nodes.size ≤ p.pairBound) (seen : Std.HashSet Key) (i : Nat) :
    p.run ⟨nodes, seen, i, []⟩ = p.runFrom nodes seen (i + 1) := by
  have hmove := move_of_nil (s := ⟨nodes, seen, i, []⟩) p rfl
  rw [runFrom]
  by_cases hlt : i + 1 < nodes.size
  · rw [if_pos ⟨hlt, Nat.lt_of_lt_of_le hlt hsize⟩] at hmove
    rw [if_pos hlt, run_of_ok hmove]
  · rw [if_neg fun hc => hlt hc.1] at hmove
    rw [if_neg hlt, run_of_error hmove]

/-- Trying symbols on a node is what the moves of the search do. -/
theorem run_of_tryAll {i : Nat} {node : Node} (hnode : w.nodes[i]? = some node)
    {seen : Std.HashSet Key} (hseen : ∀ key, seen.contains key = w.seen.contains key)
    (symbols : List (Char × Nat)) :
    match p.tryAll i node symbols w with
    | .ok w' => ∃ seen' : Std.HashSet Key, (∀ key, seen'.contains key = w'.seen.contains key) ∧
        p.run ⟨w.nodes, seen, i, symbols⟩ = p.run ⟨w'.nodes, seen', i, []⟩
    | .error (nodes, number) =>
      p.run ⟨w.nodes, seen, i, symbols⟩ = .counterexample (wordTo nodes number) := by
  induction symbols generalizing w seen with
  | nil => exact ⟨seen, hseen, rfl⟩
  | cons symbol rest ih =>
    obtain ⟨c, place⟩ := symbol
    have hmove := move_of_cons (s := ⟨w.nodes, seen, i, (c, place) :: rest⟩) p rfl hnode
    simp only [hseen] at hmove
    rw [tryAll]
    by_cases hold : w.seen.contains (p.child i node c place).key = true
    · simp only [if_pos hold] at hmove ⊢
      rw [run_of_ok hmove]
      exact ih hnode hseen
    · simp only [if_neg hold] at hmove ⊢
      cases hdis : p.disagrees (p.child i node c place) with
      | true =>
        simp only [hdis, if_true] at hmove ⊢
        exact run_of_error hmove
      | false =>
        simp only [hdis] at hmove
        rw [run_of_ok hmove]
        refine ih (getElem?_push_eq_some.mpr (Or.inl hnode)) fun key => ?_
        rw [Std.HashSet.contains_insert, Worklist.add, Std.HashMap.contains_insert, hseen]

end Pairing

/-- **A run has the verdict of the search.** -/
theorem Runs.verdict_eq {taken : List Nat} {verdict : Verdict}
    (hruns : Runs (pairing a b) w taken nodes verdict) {done : Nat} (h : Reached a b w done)
    {seen : Std.HashSet Key} (hseen : ∀ key, seen.contains key = w.seen.contains key) :
    verdict = (pairing a b).runFrom w.nodes seen done := by
  induction hruns generalizing done seen with
  | empty hqueue => rw [Pairing.runFrom, if_neg (Nat.not_lt.mpr (h.queue_eq_nil.mp hqueue))]
  | @found w node i number _ rest _ _ hqueue htry htrace =>
    have hturn := h.turn hqueue
    obtain ⟨rfl, hnode, htake⟩ := h.take hqueue
    have hrun := Pairing.run_of_tryAll (p := pairing a b) (w := { w with queue := rest })
      hnode hseen (pairing a b).symbols
    rw [htry] at hturn hrun
    have hlt : i < w.nodes.size := htake.done_le
    rw [Pairing.runFrom, if_pos hlt, hturn.1.letters_eq htrace]
    exact hrun.symm
  | @next w _ node i rest _ _ _ hqueue htry _ ih =>
    have hturn := h.turn hqueue
    obtain ⟨rfl, hnode, htake⟩ := h.take hqueue
    have hrun := Pairing.run_of_tryAll (p := pairing a b) (w := { w with queue := rest })
      hnode hseen (pairing a b).symbols
    rw [htry] at hturn hrun
    obtain ⟨seen', hseen', hrun⟩ := hrun
    have hlt : i < w.nodes.size := htake.done_le
    rw [ih hturn hseen', ← Pairing.run_eq_runFrom hturn.grown.size_le, ← hrun, Pairing.runFrom,
      if_pos hlt]

theorem Searches.verdict_eq {taken : List Nat} {verdict : Verdict}
    (h : Searches a b taken nodes verdict) : verdict = a.equivalent b := by
  unfold equivalent
  cases h with
  | root h => simp only [h, if_true]
  | loop h hruns =>
    have hseen : ∀ key, (pairing a b).start.seen.contains key =
        (Worklist.start (pairing a b)).seen.contains key := by
      intro key
      simp [Pairing.start, Worklist.start]
    rw [hruns.verdict_eq (Reached.start a b) hseen]
    simp only [h]
    rfl

theorem Searches.spec {taken : List Nat} {verdict : Verdict}
    (h : Searches a b taken nodes verdict) :
    Grown a b nodes ∧ taken = List.range taken.length ∧ taken.length ≤ nodes.size := by
  cases h with
  | root h => exact ⟨Grown.empty a b, rfl, Nat.le_refl _⟩
  | loop h hruns =>
    obtain ⟨hgrown, htaken, hle⟩ := hruns.spec (Reached.start a b)
    exact ⟨hgrown, by rwa [List.range_eq_range'], by omega⟩

theorem exists_searches (a b : Automaton) : ∃ taken nodes verdict, Searches a b taken nodes verdict := by
  cases hdis : (pairing a b).disagrees (pairing a b).root with
  | true => exact ⟨_, _, _, .root hdis⟩
  | false =>
    obtain ⟨taken, nodes, verdict, hruns⟩ := (Reached.start a b).exists_runs
    exact ⟨taken, nodes, verdict, .loop hdis hruns⟩

/-- **The equivalence check terminates.** The search has a run that ends, and each such run has the
verdict of the check. It makes at most `2 ^ n * 2 ^ m` nodes, takes none out twice, has no two nodes
for sets with the same members, and links each node to an earlier one, so that the way back from any
node ends at the first. -/
theorem equivalent_terminates (a b : Automaton) :
    (∃ taken nodes, Searches a b taken nodes (a.equivalent b)) ∧
      ∀ taken nodes verdict, Searches a b taken nodes verdict →
        verdict = a.equivalent b ∧
        nodes.size ≤ 2 ^ a.numStates * 2 ^ b.numStates ∧
        taken.Nodup ∧ (∀ i ∈ taken, i < nodes.size) ∧
        (∀ (i j : Nat) (m n : Node), nodes[i]? = some m → nodes[j]? = some n →
          (∀ q, m.left.contains q = n.left.contains q) →
          (∀ q, m.right.contains q = n.right.contains q) → i = j) ∧
        (∀ (i : Nat) (node : Node) (parent : Nat) (c : Char), nodes[i]? = some node →
          node.parent = some (parent, c) → parent < i) ∧
        ∀ i < nodes.size, Traces nodes i (lettersTo nodes i) 0 := by
  constructor
  · obtain ⟨taken, nodes, verdict, hsearch⟩ := exists_searches a b
    exact ⟨taken, nodes, hsearch.verdict_eq ▸ hsearch⟩
  · intro taken nodes verdict hsearch
    obtain ⟨hgrown, htaken, hle⟩ := hsearch.spec
    refine ⟨hsearch.verdict_eq, ?bound, ?once, ?made, ?distinct, ?link, fun i hi => hgrown.traces hi⟩
    case bound =>
      rw [← Nat.pow_add]
      exact hgrown.size_le
    case once =>
      rw [htaken]
      exact List.nodup_range
    case made =>
      intro i hi
      rw [htaken, List.mem_range] at hi
      omega
    case distinct =>
      intro i j m n hi hj hleft hright
      exact hgrown.distinct i j m n hi hj
        (Prod.ext (StateSet.toList_congr hleft) (StateSet.toList_congr hright))
    case link =>
      intro i node parent c hnode hlink
      exact hgrown.parent_lt i node hnode _ hlink

end RegularLanguages.Automaton
