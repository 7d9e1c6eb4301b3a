import RegularLanguages.Proofs.Automaton.Coherence
import RegularLanguages.Proofs.Automaton.Frontier
import RegularLanguages.Proofs.Automaton.Lookup

/-!
# Closures and steps

Here the closure of a state is found by a loop over a stack that nothing bounds. A turn takes the top
state off the stack. If the state is recorded already, nothing else happens. Otherwise it is
recorded, its edges are looked up, and the targets of its ε moves that are not recorded go onto the
stack. So a state may lie on the stack several times. `Explores` are the runs that end.

The states on the stack and the ε moves that were not looked at yet bound the number of turns that
are left (`Explores.turns_le`, `exists_explores`). The recorded and the waiting states are a
`Frontier`, so the loop finds what is reached (`Explores.contains_iff`).
-/

namespace RegularLanguages

namespace Automaton

variable {m : Automaton} {found last : StateSet} {stack : List Nat} {start turns : Nat}

/-! ## The loop -/

/-- Puts the target of an ε move onto the stack, unless it is recorded. -/
def pushTarget (found : StateSet) (stack : List Nat) (e : Edge) : List Nat :=
  if e.label = .epsilon ∧ found.contains e.target = false then e.target :: stack else stack

/-- The loop: the recorded states and the stack, the number of turns until the stack is empty, and
the recorded states then. A state that is recorded must have its edges. -/
inductive Explores (m : Automaton) : StateSet → List Nat → Nat → StateSet → Prop
  | done (found : StateSet) : Explores m found [] 0 found
  | skip {found last : StateSet} {q turns : Nat} {stack : List Nat}
      (hold : (found.insertFresh q).1 = false)
      (hrest : Explores m (found.insertFresh q).2 stack turns last) :
      Explores m found (q :: stack) (turns + 1) last
  | enter {found last : StateSet} {q turns : Nat} {stack : List Nat} {edges : List Edge}
      (hnew : (found.insertFresh q).1 = true) (hedges : m.edges[q]? = some edges)
      (hrest : Explores m (found.insertFresh q).2
        (edges.foldl (pushTarget (found.insertFresh q).2) stack) turns last) :
      Explores m found (q :: stack) (turns + 1) last

theorem mem_pushTarget {e : Edge} {r : Nat} :
    r ∈ pushTarget found stack e ↔
      r ∈ stack ∨ e = ⟨.epsilon, r⟩ ∧ found.contains r = false := by
  obtain ⟨label, target⟩ := e
  unfold pushTarget
  split
  · next h =>
    obtain ⟨rfl, hnew⟩ := h
    rw [List.mem_cons]
    constructor
    · rintro (rfl | hr)
      · exact Or.inr ⟨rfl, hnew⟩
      · exact Or.inl hr
    · rintro (hr | ⟨h, -⟩)
      · exact Or.inr hr
      · exact Or.inl (Edge.mk.inj h).2.symm
  · next h =>
    refine ⟨Or.inl, ?_⟩
    rintro (hr | ⟨heq, hnew⟩)
    · exact hr
    · obtain ⟨rfl, rfl⟩ := Edge.mk.inj heq
      exact absurd ⟨rfl, hnew⟩ h

/-- The stack after the edges of a state: the new targets of its ε moves, and what was there. -/
theorem mem_foldl_pushTarget {edges : List Edge} {r : Nat} :
    r ∈ edges.foldl (pushTarget found) stack ↔
      r ∈ stack ∨ ⟨.epsilon, r⟩ ∈ edges ∧ found.contains r = false := by
  induction edges generalizing stack with
  | nil => simp
  | cons e rest ih =>
    rw [List.foldl_cons, ih, mem_pushTarget, List.mem_cons, or_and_right, or_assoc,
      eq_comm (a := e)]

theorem length_pushTarget_le (found : StateSet) (stack : List Nat) (e : Edge) :
    (pushTarget found stack e).length ≤ stack.length + [e].countP (·.label = .epsilon) := by
  unfold pushTarget
  split
  · next h => simp [h.1]
  · exact Nat.le_add_right _ _

/-- A state puts no more states onto the stack than ε moves leave it. -/
theorem length_foldl_pushTarget_le (found : StateSet) (stack : List Nat) (edges : List Edge) :
    (edges.foldl (pushTarget found) stack).length ≤
      stack.length + edges.countP (·.label = .epsilon) := by
  induction edges generalizing stack with
  | nil => exact Nat.le_refl _
  | cons e rest ih =>
    have hfirst := length_pushTarget_le found stack e
    have hrest := ih (pushTarget found stack e)
    rw [List.foldl_cons, ← List.singleton_append, List.countP_append]
    omega

/-! ## The end of the loop -/

/-- The ε moves of the automaton. -/
def epsilonMoves (m : Automaton) : List Transition :=
  m.transitions.filter fun t => t.2.1 = .epsilon

/-- The states that wait and the ε moves that are unexplored, after a state was recorded. -/
theorem length_add_unexplored_le (stack : List Nat) {q : Nat} {edges : List Edge}
    (hnew : found.contains q = false) (hedges : m.edges[q]? = some edges) :
    (edges.foldl (pushTarget (found.insert q)) stack).length +
        unexplored m.epsilonMoves (found.insert q) ≤
      stack.length + unexplored m.epsilonMoves found := by
  obtain ⟨hq, rfl⟩ := eq_edgesFrom_of_getElem? hedges
  refine add_unexplored_le hnew ?_
  have hpushed := length_foldl_pushTarget_le (found.insert q) stack (m.edgesFrom q)
  have hmoves : _ ≤ m.epsilonMoves.countP (·.1 = q) :=
    countP_edgesFrom_le (fun label => decide (label = .epsilon)) hq
  omega

/-- **A run has at most one turn for each state that waits and each ε move that is unexplored.** -/
theorem Explores.turns_le (h : m.Explores found stack turns last) :
    turns ≤ stack.length + unexplored m.epsilonMoves found := by
  induction h with
  | done => exact Nat.zero_le _
  | @skip found _ q _ stack _ _ ih =>
    have hless := unexplored_insert_le m.epsilonMoves found q
    simp only [List.length_cons, StateSet.insertFresh_snd] at ih ⊢
    omega
  | @enter found _ q _ stack edges hnew hedges _ ih =>
    have hless := length_add_unexplored_le stack (by simpa using hnew) hedges
    have hrest := Nat.le_trans ih hless
    simp only [List.length_cons]
    omega

/-- **The loop ends.** The states on the stack have edges to look up, and so have the targets of ε
moves. -/
theorem exists_explores (hm : m.WellFormed) (hstack : ∀ q ∈ stack, q < m.numStates) :
    ∃ turns last, m.Explores found stack turns last := by
  induction hwork : stack.length + unexplored m.epsilonMoves found using Nat.strongRecOn
    generalizing found stack with
  | ind work ih =>
    cases stack with
    | nil => exact ⟨0, found, .done found⟩
    | cons q stack =>
      obtain ⟨hq, hwait⟩ := List.forall_mem_cons.mp hstack
      simp only [List.length_cons] at hwork
      cases hfound : found.contains q with
      | true =>
        have hless := unexplored_insert_le m.epsilonMoves found q
        obtain ⟨turns, last, hrest⟩ : ∃ turns last, m.Explores (found.insert q) stack turns last :=
          ih _ (by omega) hwait rfl
        exact ⟨turns + 1, last, .skip (by simp [hfound]) hrest⟩
      | false =>
        have hedges := getElem?_edges hq
        have hless := length_add_unexplored_le stack hfound hedges
        have hpushed : ∀ r ∈ (m.edgesFrom q).foldl (pushTarget (found.insert q)) stack,
            r < m.numStates := by
          intro r hr
          rcases mem_foldl_pushTarget.mp hr with hr | ⟨he, -⟩
          · exact hwait r hr
          · exact hm.target_lt q _ he
        obtain ⟨turns, last, hrest⟩ : ∃ turns last, m.Explores (found.insert q)
            ((m.edgesFrom q).foldl (pushTarget (found.insert q)) stack) turns last :=
          ih _ (by omega) hpushed rfl
        exact ⟨turns + 1, last, .enter (by simp [hfound]) hedges hrest⟩

/-! ## What the loop finds -/

/-- An ε move leads from the first state to the second. -/
def EpsilonMove (m : Automaton) (q r : Nat) : Prop := (q, .epsilon, r) ∈ m.transitions

theorem epsilonMove_iff {q r : Nat} : m.EpsilonMove q r ↔ ⟨.epsilon, r⟩ ∈ m.edgesFrom q :=
  mem_transitions

/-- **The loop finds what is reached.** -/
theorem Explores.contains_iff (h : m.Explores found stack turns last)
    (hfrontier : Frontier m.EpsilonMove start found stack) (r : Nat) :
    last.contains r = true ↔ Relation.ReflTransGen m.EpsilonMove start r := by
  induction h with
  | done found => exact hfrontier.contains_iff
  | skip hold _ ih => exact ih (hfrontier.skip (by simpa using hold))
  | enter _ hedges _ ih =>
    obtain ⟨-, rfl⟩ := eq_edgesFrom_of_getElem? hedges
    refine ih (hfrontier.enter fun r => ?_)
    rw [StateSet.insertFresh_snd, mem_foldl_pushTarget, epsilonMove_iff]

/-! ## A step -/

/-- Adds the targets of the edges with the given label. -/
def addTargets (label : Label) (reached : StateSet) (edges : List Edge) : StateSet :=
  edges.foldl (fun reached e => if e.label = label then reached.insert e.target else reached) reached

/-- The states that edges with the given label lead to. Every state in the list must have its
edges. -/
def gather? (m : Automaton) (label : Label) (states : List Nat) : Option StateSet :=
  states.foldlM (fun reached q => m.edges[q]?.map (addTargets label reached))
    (StateSet.withCapacity m.numStates)

theorem contains_addTargets {label : Label} {reached : StateSet} {edges : List Edge} {r : Nat} :
    (addTargets label reached edges).contains r = true ↔
      reached.contains r = true ∨ ⟨label, r⟩ ∈ edges := by
  induction edges generalizing reached with
  | nil => simp [addTargets]
  | cons e rest ih =>
    obtain ⟨label', target⟩ := e
    rw [addTargets, List.foldl_cons, ← addTargets, ih, List.mem_cons, ← or_assoc]
    refine or_congr ?_ Iff.rfl
    by_cases h : label' = label
    · subst h
      simp [or_comm]
    · simp [h, Ne.symm h]

theorem exists_foldlM_addTargets (label : Label) {states : List Nat}
    (hstates : ∀ q ∈ states, q < m.numStates) (first : StateSet) :
    ∃ reached, states.foldlM (fun reached q => m.edges[q]?.map (addTargets label reached)) first =
        some reached ∧
      ∀ r, reached.contains r = true ↔
        first.contains r = true ∨ ∃ q ∈ states, ⟨label, r⟩ ∈ m.edgesFrom q := by
  induction states generalizing first with
  | nil => exact ⟨first, rfl, fun r => by simp⟩
  | cons q rest ih =>
    obtain ⟨hq, hrest⟩ := List.forall_mem_cons.mp hstates
    obtain ⟨reached, hreached, hmem⟩ := ih hrest (addTargets label first (m.edgesFrom q))
    refine ⟨reached, ?_, fun r => ?_⟩
    · rw [List.foldlM_cons, getElem?_edges hq]
      exact hreached
    · rw [hmem, contains_addTargets, List.exists_mem_cons_iff, or_assoc]

/-- **The states after a symbol are found if there are edges to look up for every state.** -/
theorem exists_gather? (label : Label) {states : List Nat} (hstates : ∀ q ∈ states, q < m.numStates) :
    ∃ reached, m.gather? label states = some reached ∧
      ∀ r, reached.contains r = true ↔ ∃ q ∈ states, ⟨label, r⟩ ∈ m.edgesFrom q := by
  obtain ⟨reached, hreached, hmem⟩ :=
    exists_foldlM_addTargets label hstates (StateSet.withCapacity m.numStates)
  exact ⟨reached, hreached, fun r => by simpa using hmem r⟩

theorem Holds.union {s t : StateSet} (hs : m.Holds s) (ht : m.Holds t) : m.Holds (s.union t) := by
  intro q hq
  rw [StateSet.contains_union, Bool.or_eq_true] at hq
  exact hq.elim (ht q) (hs q)

theorem epsilonLeads_eq (hm : m.WellFormed) : m.EpsilonLeads = m.EpsilonMove :=
  funext₂ fun _ _ => propext ((epsilonLeads_iff hm).trans epsilonMove_iff.symm)

end Automaton

/-! ## Closures and steps with a table -/

namespace Memo

variable {m : Memo} {s t : StateSet} {id r : Nat}

/-- One symbol, with look-ups that can fail. -/
def step? (m : Memo) (states : StateSet) (id : Nat) : Option StateSet :=
  (m.automaton.gather? (.symbol id) states.toList).map fun reached => (m.closure reached).1

/-- **The closure of a set holds what ε moves reach from its states that exist.** -/
theorem contains_closure (hm : m.automaton.WellFormed) (hc : m.Coherent) :
    (m.closure s).1.contains r = true ↔ ∃ q, s.contains q = true ∧ q < m.automaton.numStates ∧
      Relation.ReflTransGen m.automaton.EpsilonMove q r := by
  have hlist : (m.closure s).1.toList = (m.automaton.closure s).toList := by
    simp only [closure, ask, hc.closures_eq, toList_closureIn]
    rfl
  rw [← StateSet.mem_toList, hlist, StateSet.mem_toList, Automaton.closure,
    Automaton.contains_closureFrom, Automaton.epsilonLeads_eq hm]
  simp only [StateSet.mem_toList]

/-- **A step leads along one edge for the symbol, and then along ε moves.** -/
theorem contains_step (hm : m.automaton.WellFormed) (hc : m.Coherent) :
    (m.step s id).1.contains r = true ↔ ∃ q p, s.contains q = true ∧
      (q, .symbol id, p) ∈ m.automaton.transitions ∧
      Relation.ReflTransGen m.automaton.EpsilonMove p r := by
  have hlist : (m.step s id).1.toList = (m.automaton.step s id).toList := by
    simp only [step, ask, hc.closures_eq, toList_stepIn rfl]
  rw [← StateSet.mem_toList, hlist, StateSet.mem_toList, Automaton.contains_step hm,
    Automaton.epsilonLeads_eq hm]
  simp only [Automaton.mem_transitions]

/-- Closing the states after a symbol is a step, and no look-up fails if the set holds states. -/
theorem exists_step? (hm : m.automaton.WellFormed) (hc : m.Coherent) (hs : m.automaton.Holds s)
    (id : Nat) : ∃ reached, m.step? s id = some reached ∧
      reached.toList = (m.step s id).1.toList := by
  obtain ⟨first, hfirst, hmem⟩ := Automaton.exists_gather? (.symbol id)
    fun q hq => hs q (StateSet.mem_toList.mp hq)
  refine ⟨(m.closure first).1, by rw [step?, hfirst, Option.map_some], ?_⟩
  refine StateSet.toList_congr fun r => Bool.eq_iff_iff.mpr ?_
  rw [contains_closure hm hc, contains_step hm hc]
  simp only [hmem, StateSet.mem_toList, Automaton.mem_transitions]
  constructor
  · rintro ⟨p, ⟨q, hq, hedge⟩, -, hreach⟩
    exact ⟨q, p, hq, hedge, hreach⟩
  · rintro ⟨q, p, hq, hedge, hreach⟩
    exact ⟨p, ⟨q, hq, hedge⟩, hm.target_lt q _ hedge, hreach⟩

/-! ## Laws -/

theorem closure_mono (hm : m.automaton.WellFormed) (hc : m.Coherent)
    (hst : ∀ q, s.contains q = true → t.contains q = true) (h : (m.closure s).1.contains r = true) :
    (m.closure t).1.contains r = true := by
  obtain ⟨q, hq, hlt, hreach⟩ := (contains_closure hm hc).mp h
  exact (contains_closure hm hc).mpr ⟨q, hst q hq, hlt, hreach⟩

theorem toList_closure_closure (hm : m.automaton.WellFormed) (hc : m.Coherent) (s : StateSet) :
    (m.closure (m.closure s).1).1.toList = (m.closure s).1.toList := by
  refine StateSet.toList_congr fun r => Bool.eq_iff_iff.mpr ?_
  simp only [contains_closure hm hc]
  constructor
  · rintro ⟨q, ⟨p, hp, hlt, hpq⟩, -, hqr⟩
    exact ⟨p, hp, hlt, hpq.trans hqr⟩
  · rintro ⟨q, hq, hlt, hqr⟩
    exact ⟨q, ⟨q, hq, hlt, .refl⟩, hlt, hqr⟩

theorem toList_closure_union (hm : m.automaton.WellFormed) (hc : m.Coherent) (s t : StateSet) :
    (m.closure (s.union t)).1.toList = ((m.closure s).1.union (m.closure t).1).toList := by
  refine StateSet.toList_congr fun r => Bool.eq_iff_iff.mpr ?_
  simp only [StateSet.contains_union, Bool.or_eq_true, contains_closure hm hc, or_and_right,
    exists_or]

/-- The step from a union of sets of states is the union of the steps. -/
theorem exists_step?_union (hm : m.automaton.WellFormed) (hc : m.Coherent)
    (hs : m.automaton.Holds s) (ht : m.automaton.Holds t) (id : Nat) :
    ∃ reached, m.step? (s.union t) id = some reached ∧
      reached.toList = ((m.step s id).1.union (m.step t id).1).toList := by
  obtain ⟨reached, hreached, hlist⟩ := exists_step? hm hc (hs.union ht) id
  refine ⟨reached, hreached, hlist.trans ?_⟩
  refine StateSet.toList_congr fun r => Bool.eq_iff_iff.mpr ?_
  simp only [StateSet.contains_union, Bool.or_eq_true, contains_step hm hc, or_and_right, exists_or]

/-! ## Everything together -/

/-- **A closure is what ε moves reach, and a step is the closure of what one symbol reaches.** In a
well-formed automaton the loop ends for each state, with at most one turn more than there are ε moves
in the automaton, and the table holds what it found: the states that ε moves reach. The closure of
any set holds what ε moves reach from those of its members that are states. So it grows with the set,
a closure is closed, and the closure of a union is the union of the closures. A step from a set of
states looks up no edges that are not there. It leads along one edge for the symbol and then along
ε moves, so the step from a union is the union of the steps. None of this depends on whether the
table was filled before: whatever a program did, its tables are coherent (`coherent_run`). -/
theorem closures_and_steps_follow_moves {m : Memo} (hm : m.automaton.WellFormed)
    (hc : m.Coherent) :
    (∀ q < m.automaton.numStates,
      (∃ turns found,
        m.automaton.Explores (.withCapacity m.automaton.numStates) [q] turns found) ∧
      ∀ turns found, m.automaton.Explores (.withCapacity m.automaton.numStates) [q] turns found →
        turns ≤ m.automaton.epsilonMoves.length + 1 ∧
        m.closures[q]?.map StateSet.toList = some found.toList ∧
        ∀ r, found.contains r = true ↔ Relation.ReflTransGen m.automaton.EpsilonMove q r) ∧
    (∀ s r, (m.closure s).1.contains r = true ↔
      ∃ q, s.contains q = true ∧ q < m.automaton.numStates ∧
        Relation.ReflTransGen m.automaton.EpsilonMove q r) ∧
    (∀ s t : StateSet, (∀ q, s.contains q = true → t.contains q = true) →
      ∀ r, (m.closure s).1.contains r = true → (m.closure t).1.contains r = true) ∧
    (∀ s, (m.closure (m.closure s).1).1.toList = (m.closure s).1.toList) ∧
    (∀ s t, (m.closure (s.union t)).1.toList =
      ((m.closure s).1.union (m.closure t).1).toList) ∧
    (∀ s, m.automaton.Holds s → ∀ id,
      (∃ reached, m.step? s id = some reached ∧ reached.toList = (m.step s id).1.toList) ∧
      ∀ r, (m.step s id).1.contains r = true ↔
        ∃ q p, s.contains q = true ∧ (q, .symbol id, p) ∈ m.automaton.transitions ∧
          Relation.ReflTransGen m.automaton.EpsilonMove p r) ∧
    ∀ s t, m.automaton.Holds s → m.automaton.Holds t → ∀ id,
      ∃ reached, m.step? (s.union t) id = some reached ∧
        reached.toList = ((m.step s id).1.union (m.step t id).1).toList := by
  refine ⟨fun q hq => ⟨?ends, fun turns found hrun => ⟨?turns, ?table, ?found⟩⟩,
    fun _ _ => contains_closure hm hc, fun _ _ hst _ => closure_mono hm hc hst,
    toList_closure_closure hm hc, toList_closure_union hm hc,
    fun _ hs id => ⟨exists_step? hm hc hs id, fun _ => contains_step hm hc⟩,
    fun _ _ hs ht id => exists_step?_union hm hc hs ht id⟩
  case ends => exact Automaton.exists_explores hm (List.forall_mem_singleton.mpr hq)
  case turns =>
    have hturns := hrun.turns_le
    have hmoves :=
      Automaton.unexplored_le m.automaton.epsilonMoves (.withCapacity m.automaton.numStates)
    rw [List.length_singleton] at hturns
    omega
  case table =>
    have hentry : m.closures[q]? = some (m.automaton.closureOf q) := by
      rw [hc.closures_eq]
      simp [closuresOf, hq]
    rw [hentry, Option.map_some]
    refine congrArg some (StateSet.toList_congr fun r => Bool.eq_iff_iff.mpr ?_)
    rw [hrun.contains_iff (.first _ _ _), Automaton.closureOf, Automaton.contains_closureFrom,
      Automaton.epsilonLeads_eq hm]
    simp [hq]
  case found => exact hrun.contains_iff (.first _ _ _)

/-- The case of a cycle of ε moves with a loop on it, of a set with a number that is no state, and of
a symbol that leads off the cycle. -/
theorem closures_and_steps_follow_moves_on_cycle :
    let m := ofAutomaton (((((Automaton.ofStart (.ofChars ['a'])).addStates 2).addTransition 0
      .epsilon 1).addTransition 1 .epsilon 1).addTransition 1 .epsilon 0 |>.addTransition 1
      (.symbol 0) 2)
    let s := StateSet.ofList [1, 7]
    let t := StateSet.ofList [0, 1]
    m.automaton.WellFormed ∧ m.Coherent ∧ m.automaton.Holds t ∧
      (∃ turns found, m.automaton.Explores (.withCapacity 3) [0] turns found ∧ turns ≤ 4 ∧
        found.toList = [0, 1]) ∧
      (m.closure s).1.toList = [0, 1] ∧
      (m.closure (m.closure s).1).1.toList = (m.closure s).1.toList ∧
      (∀ r, (m.closure t).1.contains r = true ↔ ∃ q, t.contains q = true ∧ q < 3 ∧
        Relation.ReflTransGen m.automaton.EpsilonMove q r) ∧
      (m.step t 0).1.toList = [2] ∧
      (∃ reached, m.step? t 0 = some reached ∧ reached.toList = [2]) := by
  intro m s t
  have hletter : (Label.symbol 0).Known (.ofChars ['a']) := by
    show 0 < (Alphabet.ofChars ['a']).size
    decide
  have hstates := (Automaton.wellFormed_ofStart (.ofChars ['a'])).addState.addState
  have hm : m.automaton.WellFormed :=
    (((hstates.addTransition 0 (by decide) (by exact trivial)).addTransition 1 (by decide)
      (by exact trivial)).addTransition 1 (by decide) (by exact trivial)).addTransition 1
      (by decide) hletter
  have hc : m.Coherent := coherent_ofAutomaton _
  have ht : m.automaton.Holds t := by
    intro q hq
    have hq : q ∈ [0, 1] := by simpa [t] using hq
    have hall : ∀ q ∈ [0, 1], q < m.automaton.numStates := by decide
    exact hall q hq
  have hclosure : (m.closure s).1.toList = [0, 1] := by cbv
  have hentry : m.closures[0]?.map StateSet.toList = some [0, 1] := by cbv
  have hstep : (m.step t 0).1.toList = [2] := by cbv
  obtain ⟨hloop, hmem, -, hidem, -, hsteps, -⟩ := closures_and_steps_follow_moves hm hc
  obtain ⟨⟨turns, found, hrun⟩, hall⟩ := hloop 0 (by decide)
  obtain ⟨hturns, htable, -⟩ := hall turns found hrun
  obtain ⟨⟨reached, hreached, hlist⟩, -⟩ := hsteps t ht 0
  exact ⟨hm, hc, ht, ⟨turns, found, hrun, hturns, Option.some.inj (htable.symm.trans hentry)⟩,
    hclosure, hidem s, hmem t, hstep, reached, hreached, hlist.trans hstep⟩

end Memo

end RegularLanguages
