import RegularLanguages.Proofs.Automaton.Construction
import RegularLanguages.Proofs.Automaton.Memo

/-!
# Look-ups in an automaton

`edgesFrom` has an answer for every number, also for one that is no state, and the table of new
symbol numbers is read with a default as well. In this module each look-up can fail, and then there
is no answer at all. A computation with such look-ups has an answer exactly if all of them find an
entry.

In a well-formed automaton none fails, and the answers are those of the definitions with defaults.
What has to be said for this is which states are looked up: the states on the stack of a search, the
members of a set that makes a step, and the symbols on the edges.
-/

namespace RegularLanguages

/-! ## Search -/

/-- Depth-first search in which every state that is entered must have an entry. -/
def search? (table : Array (List Edge)) (next : List Edge → List Nat) :
    List Nat → StateSet → Option StateSet
  | [], marked => some marked
  | q :: stack, marked =>
    if _h : marked.contains q = true then search? table next stack marked
    else
      match _hq : table[q]? with
      | none => none
      | some edges => search? table next (next edges ++ stack) (marked.insert q)
termination_by stack marked => (unmarked table.size marked, stack.length)
decreasing_by
  · exact Prod.Lex.right _ (by simp)
  · exact Prod.Lex.left _ _
      (unmarked_insert_lt (Array.getElem?_eq_some_iff.mp _hq).1 (by simpa using _h))

namespace Automaton

variable {m : Automaton}

theorem getElem?_edges {q : Nat} (hq : q < m.numStates) : m.edges[q]? = some (m.edgesFrom q) := by
  rw [edgesFrom, Array.getD_eq_getD_getElem?, Array.getElem?_eq_getElem hq]
  rfl

/-- An entry for a number is the entry for a state, and holds its edges. -/
theorem eq_edgesFrom_of_getElem? {q : Nat} {edges : List Edge} (h : m.edges[q]? = some edges) :
    q < m.numStates ∧ edges = m.edgesFrom q := by
  have hq : q < m.numStates := (Array.getElem?_eq_some_iff.mp h).1
  exact ⟨hq, Option.some.inj (h.symm.trans (getElem?_edges hq))⟩

/-- **No look-up of a search fails** if its stack and all targets of edges are states. -/
theorem search?_eq {next : List Edge → List Nat}
    (hnext : ∀ q, ∀ r ∈ next (m.edgesFrom q), r < m.numStates) {stack : List Nat}
    {marked : StateSet} (hstack : ∀ q ∈ stack, q < m.numStates) :
    search? m.edges next stack marked =
      some (search (fun q => next (m.edgesFrom q)) m.numStates stack marked) := by
  fun_induction search (fun q => next (m.edgesFrom q)) m.numStates stack marked with
  | case1 marked => rw [search?]
  | case2 q stack marked hq ih =>
    obtain ⟨hstate, hrest⟩ := List.forall_mem_cons.mp hstack
    have hunmarked : ¬ marked.contains q = true := by simp [hq.2]
    rw [search?, dif_neg hunmarked]
    split
    · next hnone =>
      rw [getElem?_edges hstate] at hnone
      cases hnone
    · next edges hedges =>
      obtain ⟨-, rfl⟩ := eq_edgesFrom_of_getElem? hedges
      exact ih (List.forall_mem_append.mpr ⟨hnext q, hrest⟩)
  | case3 q stack marked hq ih =>
    obtain ⟨hstate, hrest⟩ := List.forall_mem_cons.mp hstack
    have hmarked : marked.contains q = true := by simpa [hstate] using hq
    rw [search?, dif_pos hmarked]
    exact ih hrest

/-! ## Closures and steps -/

/-- The targets of the edges with the given label. -/
def targetsBy (label : Label) (edges : List Edge) : List Nat :=
  edges.filterMap fun e => if e.label = label then some e.target else none

/-- The closure of a list of states. -/
def closureFrom? (m : Automaton) (states : List Nat) : Option StateSet :=
  search? m.edges (targetsBy .epsilon) states (StateSet.withCapacity m.numStates)

/-- The ε closure of one state. -/
def closureOf? (m : Automaton) (q : Nat) : Option StateSet := m.closureFrom? [q]

/-- The ε closures of all states, by number. -/
def closures? (m : Automaton) : Option (List StateSet) := (List.range m.numStates).mapM m.closureOf?

/-- The closed set of states after one symbol. -/
def step? (m : Automaton) (states : StateSet) (id : Nat) : Option StateSet :=
  (states.toList.mapM fun q => m.edges[q]?).bind fun found =>
    m.closureFrom? (found.flatMap (targetsBy (.symbol id)))

/-- Whether a row of symbol numbers leads from a set of states to an accepting state. -/
def acceptsFrom? (m : Automaton) : StateSet → List Nat → Option Bool
  | states, [] => some (m.acceptsAny states)
  | states, id :: rest =>
    if states.isEmpty then some false
    else (m.step? states id).bind fun next => m.acceptsFrom? next rest

/-- Whether the automaton accepts a word. -/
def accepts? (m : Automaton) (word : String) : Option Bool :=
  match m.alphabet.encode? word with
  | some ids => (m.closureOf? m.start).bind fun first => m.acceptsFrom? first ids
  | none => some false

/-- Whether no accepting state can be reached. -/
def isEmpty? (m : Automaton) : Option Bool :=
  (search? m.edges (List.map Edge.target) [m.start] (StateSet.withCapacity m.numStates)).map
    fun reached => !m.acceptsAny reached

/-- All members of the set are states of the automaton. -/
def Holds (m : Automaton) (states : StateSet) : Prop :=
  ∀ q, states.contains q = true → q < m.numStates

theorem holds_closureFrom (m : Automaton) (states : List Nat) : m.Holds (m.closureFrom states) :=
  fun _ hq => lt_of_contains_closureFrom hq

namespace WellFormed

theorem lt_of_mem_targetsBy (hm : m.WellFormed) {label : Label} {q r : Nat}
    (hr : r ∈ targetsBy label (m.edgesFrom q)) : r < m.numStates :=
  hm.target_lt q _ (mem_successors.mp hr)

theorem closureFrom?_eq (hm : m.WellFormed) {states : List Nat}
    (hstates : ∀ q ∈ states, q < m.numStates) :
    m.closureFrom? states = some (m.closureFrom states) :=
  search?_eq (fun _ _ hr => hm.lt_of_mem_targetsBy hr) hstates

theorem closureOf?_eq (hm : m.WellFormed) {q : Nat} (hq : q < m.numStates) :
    m.closureOf? q = some (m.closureOf q) :=
  hm.closureFrom?_eq (List.forall_mem_singleton.mpr hq)

theorem closures?_eq (hm : m.WellFormed) : m.closures? = some (Memo.closuresOf m).toList := by
  refine mapM_eq_some_map fun q hq => ?_
  exact hm.closureOf?_eq (List.mem_range.mp hq)

theorem step?_eq (hm : m.WellFormed) {states : StateSet} (hstates : m.Holds states) (id : Nat) :
    m.step? states id = some (m.step states id) := by
  have hfound : states.toList.mapM (fun q => m.edges[q]?) = some (states.toList.map m.edgesFrom) :=
    mapM_eq_some_map fun q hq => getElem?_edges (hstates q (StateSet.mem_toList.mp hq))
  have htargets : (states.toList.map m.edgesFrom).flatMap (targetsBy (.symbol id)) =
      m.targets states id := List.flatMap_map ..
  rw [step?, hfound, Option.bind_some, htargets]
  refine hm.closureFrom?_eq fun r hr => ?_
  obtain ⟨q, -, hr⟩ := List.mem_flatMap.mp hr
  exact hm.lt_of_mem_targetsBy hr

/-- A set that a step leads to holds states only, so the next step finds its edges again. -/
theorem acceptsFrom?_eq (hm : m.WellFormed) (ids : List Nat) {states : StateSet}
    (hstates : m.Holds states) :
    m.acceptsFrom? states ids = some (m.acceptsFrom m.step states ids) := by
  induction ids generalizing states with
  | nil => rfl
  | cons id ids ih =>
    rw [acceptsFrom?, acceptsFrom]
    split
    · rfl
    · rw [hm.step?_eq hstates id]
      exact ih (holds_closureFrom m _)

theorem accepts?_eq (hm : m.WellFormed) (word : String) :
    m.accepts? word = some (m.accepts word) := by
  unfold accepts? accepts
  cases m.alphabet.encode? word with
  | none => rfl
  | some ids =>
    have hfirst : m.Holds m.startClosure := holds_closureFrom m [m.start]
    simp only [hm.closureOf?_eq hm.start_lt, Option.bind_some]
    exact hm.acceptsFrom?_eq ids hfirst

theorem isEmpty?_eq (hm : m.WellFormed) : m.isEmpty? = some m.isEmpty := by
  have hnext : ∀ q, ∀ r ∈ (m.edgesFrom q).map Edge.target, r < m.numStates := by
    intro q r hr
    obtain ⟨e, he, rfl⟩ := List.mem_map.mp hr
    exact hm.target_lt q e he
  rw [isEmpty?, search?_eq hnext (List.forall_mem_singleton.mpr hm.start_lt)]
  rfl

end WellFormed

/-! ## Symbols over another alphabet -/

/-- The edge after the symbol numbers are replaced. Nothing is left of it if its character is not in
the other alphabet. -/
def renumberEdge? (table : Array (Option Nat)) (e : Edge) : Option (Option Edge) :=
  match e.label with
  | .epsilon => some (some e)
  | .symbol id => table[id]?.map fun new => new.map fun id' => ⟨.symbol id', e.target⟩

/-- The edges that are left after the symbol numbers are replaced. -/
def renumberEdges? (table : Array (Option Nat)) (edges : List Edge) : Option (List Edge) :=
  (edges.mapM (renumberEdge? table)).map fun replaced => replaced.filterMap id

/-- The automaton over another alphabet. -/
def relabel? (m : Automaton) (alphabet : Alphabet) : Option Automaton :=
  if alphabet = m.alphabet then some m
  else
    let table := m.alphabet.renumbering alphabet
    (m.edges.toList.mapM (renumberEdges? table)).map fun edges =>
      { m with alphabet := alphabet, edges := edges.toArray }

theorem renumberEdge?_eq {table : Array (Option Nat)} {e : Edge}
    (h : ∀ id, e.label = .symbol id → id < table.size) :
    renumberEdge? table e = some (renumberEdge table e) := by
  obtain ⟨label, target⟩ := e
  cases label with
  | epsilon => rfl
  | symbol id =>
    have hentry := Array.getElem?_eq_getElem (h id rfl)
    simp only [renumberEdge?, renumberEdge, renumberLabel, Array.getD_eq_getD_getElem?, hentry,
      Option.map_some, Option.getD_some, Option.map_map]
    rfl

theorem renumberEdges?_eq {table : Array (Option Nat)} {edges : List Edge}
    (h : ∀ e ∈ edges, ∀ id, e.label = .symbol id → id < table.size) :
    renumberEdges? table edges = some (edges.filterMap (renumberEdge table)) := by
  have hreplaced := mapM_eq_some_map fun e he => renumberEdge?_eq (h e he)
  rw [renumberEdges?, hreplaced, Option.map_some, List.filterMap_map]
  rfl

/-- **Every symbol of an edge has an entry in the table**, whatever the other alphabet is. -/
theorem WellFormed.relabel?_eq (hm : m.WellFormed) (alphabet : Alphabet) :
    m.relabel? alphabet = some (m.relabel alphabet) := by
  unfold relabel? Automaton.relabel
  split
  · rfl
  · have hknown : ∀ edges ∈ m.edges.toList, ∀ e ∈ edges, ∀ id, e.label = .symbol id →
        id < (m.alphabet.renumbering alphabet).size := by
      intro edges hedges e he id hid
      obtain ⟨q, hq⟩ := List.mem_iff_getElem?.mp hedges
      have hfrom : edges = m.edgesFrom q := by
        rw [Array.getElem?_toList] at hq
        rw [edgesFrom, Array.getD_eq_getD_getElem?, hq]
        rfl
      have hlabel : id < m.alphabet.size := by
        have hknown := hm.label_known q e (hfrom ▸ he)
        rwa [hid] at hknown
      simpa [Alphabet.renumbering, Alphabet.size] using hlabel
    have hedges := mapM_eq_some_map fun edges hedges => renumberEdges?_eq (hknown edges hedges)
    simp only [hedges, Option.map_some]
    rw [← Array.toList_map]

end Automaton

end RegularLanguages
