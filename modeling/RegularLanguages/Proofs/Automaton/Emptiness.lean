import RegularLanguages.Proofs.Automaton.Frontier
import RegularLanguages.Proofs.Automaton.Lookup
import RegularLanguages.Proofs.Automaton.Verdict

/-!
# Empty languages

The test for emptiness follows the edges and does not look at what they read. In a well-formed
automaton each edge reads something that can be written: nothing, or a symbol with a character. So a
state that is reached is reached by a word (`contains_reachable`), and the test finds an accepting
state if and only if some word is accepted. The equivalence check against an automaton without any
words comes to the same answer by reading words.

`Seeks` is the test as a loop over a queue that nothing bounds, and that is left as soon as an
accepting state is taken out. The loop ends, and its answer is that of the test
(`exists_seeks`, `Seeks.eq_isEmpty`).
-/

namespace RegularLanguages.Automaton

variable {m : Automaton}

/-! ## Reachable states -/

/-- One move of the test: along any edge, to a state that exists. -/
abbrev EdgeLeads (m : Automaton) : Nat → Nat → Prop :=
  Leads (fun q => (m.edgesFrom q).map Edge.target) m.numStates

theorem edgeLeads_iff (hm : m.WellFormed) {q r : Nat} :
    m.EdgeLeads q r ↔ ∃ label, ⟨label, r⟩ ∈ m.edgesFrom q := by
  rw [EdgeLeads, Leads, List.mem_map]
  constructor
  · rintro ⟨⟨⟨label, _⟩, he, rfl⟩, -⟩
    exact ⟨label, he⟩
  · rintro ⟨label, he⟩
    exact ⟨⟨_, he, rfl⟩, hm.target_lt _ _ he⟩

/-- What an edge reads can be put in front of a word. -/
theorem exists_path_of_edge (hm : m.WellFormed) {label : Label} {q r s : Nat} {w : List Char}
    (he : ⟨label, r⟩ ∈ m.edgesFrom q) (hpath : m.Path m.alphabet.symbol? r w s) :
    ∃ v, m.Path m.alphabet.symbol? q v s := by
  cases label with
  | epsilon => exact ⟨w, .epsilon he hpath⟩
  | symbol id =>
    have hid : id < m.alphabet.symbols.length := hm.label_known q _ he
    exact ⟨m.alphabet.symbols[id] :: w, .symbol he (List.getElem?_eq_getElem hid) hpath⟩

theorem reflTransGen_edgeLeads_iff (hm : m.WellFormed) {q r : Nat} :
    Relation.ReflTransGen m.EdgeLeads q r ↔ ∃ w, m.Path m.alphabet.symbol? q w r := by
  constructor
  · intro h
    induction h using Relation.ReflTransGen.head_induction_on with
    | refl => exact ⟨[], .refl r⟩
    | head hlead _ ih =>
      obtain ⟨label, he⟩ := (edgeLeads_iff hm).mp hlead
      obtain ⟨w, hpath⟩ := ih
      exact exists_path_of_edge hm he hpath
  · rintro ⟨w, hpath⟩
    induction hpath with
    | refl q => exact .refl
    | epsilon he _ ih => exact .head ((edgeLeads_iff hm).mpr ⟨_, he⟩) ih
    | symbol he _ _ ih => exact .head ((edgeLeads_iff hm).mpr ⟨_, he⟩) ih

theorem contains_reachable_iff (hm : m.WellFormed) {r : Nat} :
    m.reachable.contains r = true ↔ Relation.ReflTransGen m.EdgeLeads m.start r := by
  rw [reachable, contains_search]
  constructor
  · rintro ⟨q, hq, -, hreach⟩
    rwa [List.mem_singleton.mp hq] at hreach
  · intro hreach
    exact ⟨m.start, List.mem_singleton_self _, hm.start_lt, hreach⟩

/-- **A state is reachable if and only if some word leads to it.** -/
theorem contains_reachable (hm : m.WellFormed) {r : Nat} :
    m.reachable.contains r = true ↔ ∃ w, m.Path m.alphabet.symbol? m.start w r := by
  rw [contains_reachable_iff hm, reflTransGen_edgeLeads_iff hm]

/-! ## The test -/

theorem isEmpty_eq_false_iff (hm : m.WellFormed) :
    m.isEmpty = false ↔ ∃ w : String, m.accepts w = true := by
  rw [isEmpty, Bool.not_eq_false', acceptsAny, StateSet.intersects_iff]
  simp only [contains_reachable hm, accepts_iff hm, mem_language]
  constructor
  · rintro ⟨r, ⟨w, hpath⟩, hr⟩
    refine ⟨String.ofList w, r, hr, ?_⟩
    rwa [String.toList_ofList]
  · rintro ⟨w, r, hr, hpath⟩
    exact ⟨r, ⟨_, hpath⟩, hr⟩

theorem isEmpty_iff (hm : m.WellFormed) : m.isEmpty = true ↔ ∀ w : String, m.accepts w = false := by
  rw [← Bool.not_eq_false, isEmpty_eq_false_iff hm, not_exists]
  simp only [Bool.not_eq_true]

/-! ## The queue -/

/-- The targets of edges that are not recorded, in order. -/
def newTargets (found : StateSet) (edges : List Edge) : List Nat :=
  (edges.map Edge.target).filter fun r => !found.contains r

/-- The loop: the recorded states and the queue, the number of turns until it is left, and the answer.
A state that is recorded and does not accept must have its edges. -/
inductive Seeks (m : Automaton) : StateSet → List Nat → Nat → Bool → Prop
  | done (found : StateSet) : Seeks m found [] 0 true
  | skip {found : StateSet} {q turns : Nat} {queue : List Nat} {answer : Bool}
      (hold : (found.insertFresh q).1 = false)
      (hrest : Seeks m (found.insertFresh q).2 queue turns answer) :
      Seeks m found (q :: queue) (turns + 1) answer
  | accept {found : StateSet} {q : Nat} {queue : List Nat} (hnew : (found.insertFresh q).1 = true)
      (haccepting : m.accepting.contains q = true) : Seeks m found (q :: queue) 1 false
  | enter {found : StateSet} {q turns : Nat} {queue : List Nat} {answer : Bool} {edges : List Edge}
      (hnew : (found.insertFresh q).1 = true) (hrejecting : m.accepting.contains q = false)
      (hedges : m.edges[q]? = some edges)
      (hrest : Seeks m (found.insertFresh q).2
        (queue ++ newTargets (found.insertFresh q).2 edges) turns answer) :
      Seeks m found (q :: queue) (turns + 1) answer

section Queue

variable {found : StateSet} {queue : List Nat} {turns : Nat} {answer : Bool}

theorem mem_newTargets {edges : List Edge} {r : Nat} :
    r ∈ newTargets found edges ↔ (∃ label, ⟨label, r⟩ ∈ edges) ∧ found.contains r = false := by
  rw [newTargets, List.mem_filter, Bool.not_eq_true', List.mem_map]
  refine and_congr_left fun _ => ⟨?_, ?_⟩
  · rintro ⟨⟨label, _⟩, he, rfl⟩
    exact ⟨label, he⟩
  · rintro ⟨label, he⟩
    exact ⟨_, he, rfl⟩

/-- The states that wait and the transitions that are unexplored, after a state was recorded. -/
theorem length_append_newTargets_le (queue : List Nat) {q : Nat} {edges : List Edge}
    (hnew : found.contains q = false) (hedges : m.edges[q]? = some edges) :
    (queue ++ newTargets (found.insert q) edges).length +
        unexplored m.transitions (found.insert q) ≤
      queue.length + unexplored m.transitions found := by
  obtain ⟨hq, rfl⟩ := eq_edgesFrom_of_getElem? hedges
  refine add_unexplored_le hnew ?_
  have hjoined := List.length_filter_le (fun r => !(found.insert q).contains r)
    ((m.edgesFrom q).map Edge.target)
  have hmoves := countP_edgesFrom_le (fun _ => true) hq
  rw [List.countP_true, List.filter_true] at hmoves
  rw [List.length_map] at hjoined
  rw [List.length_append, newTargets]
  omega

theorem Seeks.turns_le (h : m.Seeks found queue turns answer) :
    turns ≤ queue.length + unexplored m.transitions found := by
  induction h with
  | done => exact Nat.zero_le _
  | @skip found q _ _ _ _ _ ih =>
    have hless := unexplored_insert_le m.transitions found q
    simp only [List.length_cons, StateSet.insertFresh_snd] at ih ⊢
    omega
  | accept =>
    simp only [List.length_cons]
    omega
  | @enter found q _ queue _ edges hnew _ hedges _ ih =>
    have hless := length_append_newTargets_le queue (by simpa using hnew) hedges
    have hrest := Nat.le_trans ih hless
    simp only [List.length_cons]
    omega

/-- **The loop ends.** The states in the queue have edges to look up, and so have the targets of
edges. -/
theorem exists_seeks (hm : m.WellFormed) (hqueue : ∀ q ∈ queue, q < m.numStates) :
    ∃ turns answer, m.Seeks found queue turns answer := by
  -- a turn takes one state off the queue, and each state that joins uses up an unexplored transition
  induction hwork : queue.length + unexplored m.transitions found using Nat.strongRecOn
    generalizing found queue with
  | ind work ih =>
    cases queue with
    | nil => exact ⟨0, true, .done found⟩
    | cons q queue =>
      obtain ⟨hq, hwait⟩ := List.forall_mem_cons.mp hqueue
      simp only [List.length_cons] at hwork
      cases hfound : found.contains q with
      | true =>
        have hless := unexplored_insert_le m.transitions found q
        obtain ⟨turns, answer, hrest⟩ : ∃ turns answer, m.Seeks (found.insert q) queue turns answer :=
          ih _ (by omega) hwait rfl
        exact ⟨turns + 1, answer, .skip (by simp [hfound]) hrest⟩
      | false =>
        cases haccepting : m.accepting.contains q with
        | true => exact ⟨1, false, .accept (by simp [hfound]) haccepting⟩
        | false =>
          have hedges := getElem?_edges hq
          have hless := length_append_newTargets_le queue hfound hedges
          have hjoined : ∀ r ∈ queue ++ newTargets (found.insert q) (m.edgesFrom q),
              r < m.numStates := by
            refine List.forall_mem_append.mpr ⟨hwait, fun r hr => ?_⟩
            obtain ⟨⟨label, he⟩, -⟩ := mem_newTargets.mp hr
            exact hm.target_lt q _ he
          obtain ⟨turns, answer, hrest⟩ : ∃ turns answer, m.Seeks (found.insert q)
              (queue ++ newTargets (found.insert q) (m.edgesFrom q)) turns answer :=
            ih _ (by omega) hjoined rfl
          exact ⟨turns + 1, answer, .enter (by simp [hfound]) haccepting hedges hrest⟩

/-- The answer is that no accepting state is reached, if none was recorded before. -/
theorem Seeks.answer_iff (hm : m.WellFormed) (h : m.Seeks found queue turns answer)
    (hfrontier : Frontier m.EdgeLeads m.start found queue)
    (hnone : ∀ q, found.contains q = true → m.accepting.contains q = false) :
    answer = true ↔
      ∀ r, Relation.ReflTransGen m.EdgeLeads m.start r → m.accepting.contains r = false := by
  induction h with
  | done found =>
    exact iff_of_true rfl fun r hreach => hnone r (hfrontier.contains_iff.mpr hreach)
  | @skip found q _ _ _ hold _ ih =>
    have hfound : found.contains q = true := by simpa using hold
    exact ih (hfrontier.skip hfound) (StateSet.forall_contains_insert.mpr ⟨hnone q hfound, hnone⟩)
  | @accept found q _ _ haccepting =>
    refine iff_of_false (by decide) fun hall => ?_
    rw [hall q (hfrontier.of_waiting q List.mem_cons_self)] at haccepting
    cases haccepting
  | @enter found q _ _ _ edges _ hrejecting hedges _ ih =>
    obtain ⟨-, rfl⟩ := eq_edgesFrom_of_getElem? hedges
    refine ih (hfrontier.enter fun r => ?_)
      (StateSet.forall_contains_insert.mpr ⟨hrejecting, hnone⟩)
    rw [StateSet.insertFresh_snd, List.mem_append, mem_newTargets, edgeLeads_iff hm]

/-- **The loop answers as the test does.** -/
theorem Seeks.eq_isEmpty (hm : m.WellFormed)
    (h : m.Seeks (.withCapacity m.numStates) [m.start] turns answer) : answer = m.isEmpty := by
  rw [Bool.eq_iff_iff, h.answer_iff hm (.first _ _ _) (by simp), isEmpty, Bool.not_eq_true',
    ← Bool.not_eq_true, acceptsAny, StateSet.intersects_iff, not_exists]
  refine forall_congr' fun r => ?_
  rw [contains_reachable_iff hm, not_and, Bool.not_eq_true]

end Queue

/-! ## The equivalence check -/

theorem accepts_emptyLanguage (alphabet : Alphabet) (w : String) :
    (emptyLanguage alphabet).accepts w = false := by
  rw [accepts_eq, acceptsAny, ← Bool.not_eq_true, StateSet.intersects_iff]
  rintro ⟨q, -, hq⟩
  simp [emptyLanguage, ofStart] at hq

theorem equivalent_eq_equal_iff (a b : Automaton) :
    a.equivalent b = .equal ↔ ∀ w : String, a.accepts w = b.accepts w := by
  have hanswers := equivalent_answers a b
  generalize a.equivalent b = verdict at hanswers
  cases verdict with
  | equal => exact iff_of_true rfl fun w => agree_iff_accepts.mp (hanswers w.toList)
  | counterexample w =>
    refine iff_of_false (fun h => by cases h) fun hall => ?_
    exact hanswers.1 (agree_iff_accepts.mpr (hall w))

/-- **The two tests for emptiness agree.** No accepting state is reachable if and only if no word is
accepted, whatever characters it has; and if and only if the equivalence check cannot tell the
automaton from the one that accepts nothing, over whatever alphabet. The loop over a queue gives the
same answer. It ends, with at most one turn more than there are transitions. -/
theorem isEmpty_decides (hm : m.WellFormed) :
    (m.isEmpty = true ↔ ∀ w : String, m.accepts w = false) ∧
      (∀ alphabet, m.isEmpty = true ↔ m.equivalent (emptyLanguage alphabet) = .equal) ∧
      (∃ turns answer, m.Seeks (.withCapacity m.numStates) [m.start] turns answer) ∧
      ∀ turns answer, m.Seeks (.withCapacity m.numStates) [m.start] turns answer →
        turns ≤ m.transitions.length + 1 ∧ answer = m.isEmpty := by
  refine ⟨isEmpty_iff hm, fun alphabet => ?_, ?_, fun turns answer hseeks => ⟨?_, ?_⟩⟩
  · rw [isEmpty_iff hm, equivalent_eq_equal_iff]
    simp only [accepts_emptyLanguage]
  · exact exists_seeks hm (List.forall_mem_singleton.mpr hm.start_lt)
  · have hturns := hseeks.turns_le
    have hmoves := unexplored_le m.transitions (.withCapacity m.numStates)
    rw [List.length_singleton] at hturns
    omega
  · exact hseeks.eq_isEmpty hm

/-- The case of a start on a cycle of ε moves, and of an accepting state that has an edge to the start
but none from it. -/
theorem isEmpty_decides_of_unreachable :
    let m := (((((ofStart (.ofChars ['a'])).addStates 2).addTransition 0 .epsilon 1).addTransition 1
      .epsilon 0).addTransition 2 (.symbol 0) 0).addAccepting 2
    m.WellFormed ∧ m.isEmpty = true ∧ (∀ w : String, m.accepts w = false) ∧
      (∀ alphabet, m.equivalent (emptyLanguage alphabet) = .equal) ∧
      ∃ turns, m.Seeks (.withCapacity 3) [0] turns true ∧ turns ≤ 4 := by
  intro m
  have hletter : (Label.symbol 0).Known (.ofChars ['a']) := by
    show 0 < (Alphabet.ofChars ['a']).size
    decide
  have hstates := (wellFormed_ofStart (.ofChars ['a'])).addState.addState
  have hm : m.WellFormed :=
    (((hstates.addTransition 0 (by decide) (by exact trivial)).addTransition 1 (by decide)
      (by exact trivial)).addTransition 2 (by decide) hletter).addAccepting (by decide)
  have hempty : m.isEmpty = true := by cbv
  obtain ⟨hiff, hagree, ⟨turns, answer, hseeks⟩, hall⟩ := isEmpty_decides hm
  obtain ⟨hturns, rfl⟩ := hall turns answer hseeks
  rw [hempty] at hseeks
  exact ⟨hm, hempty, hiff.mp hempty, fun alphabet => (hagree alphabet).mp hempty, turns, hseeks,
    hturns⟩

end RegularLanguages.Automaton
