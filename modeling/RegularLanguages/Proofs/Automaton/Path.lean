import Mathlib.Computability.Language
import RegularLanguages.Proofs.Alphabet
import RegularLanguages.Proofs.Automaton.Reading
import RegularLanguages.Proofs.Automaton.WellFormed

/-!
# Paths and languages

An automaton accepts a word if and only if some path from its start to an accepting state spells the
word. A path takes any number of ε moves between two letters. What a symbol number spells is a
parameter: the character that has this number, or the number itself.

The running automaton keeps a set of states, closed under ε moves. `foldl_contains` ties this set to
paths; it is proved for all sets that are closed, because the set changes with each letter.
-/

namespace RegularLanguages.Automaton

variable {α : Type} {m : Automaton} {spell : Nat → Option α}

/-! ## Paths -/

/-- A path from one state to another, and the word that it spells. -/
inductive Path (m : Automaton) (spell : Nat → Option α) : Nat → List α → Nat → Prop
  | refl (q : Nat) : Path m spell q [] q
  | epsilon {q r s : Nat} {w : List α} (hedge : ⟨.epsilon, r⟩ ∈ m.edgesFrom q)
    (hrest : Path m spell r w s) : Path m spell q w s
  | symbol {q r s id : Nat} {x : α} {w : List α} (hedge : ⟨.symbol id, r⟩ ∈ m.edgesFrom q)
    (hspell : spell id = some x) (hrest : Path m spell r w s) : Path m spell q (x :: w) s

/-- The words that paths from the start to an accepting state spell. -/
def language (m : Automaton) (spell : Nat → Option α) : Language α :=
  {w | ∃ r, m.accepting.contains r = true ∧ m.Path spell m.start w r}

theorem mem_language {w : List α} :
    w ∈ m.language spell ↔ ∃ r, m.accepting.contains r = true ∧ m.Path spell m.start w r :=
  Iff.rfl

theorem Path.append {q r s : Nat} {u v : List α} (h : m.Path spell q u r)
    (h' : m.Path spell r v s) : m.Path spell q (u ++ v) s := by
  induction h with
  | refl => exact h'
  | epsilon hedge _ ih => exact .epsilon hedge (ih h')
  | symbol hedge hspell _ ih => exact .symbol hedge hspell (ih h')

theorem Path.lt (hm : m.WellFormed) {q r : Nat} {w : List α} (hq : q < m.numStates)
    (h : m.Path spell q w r) : r < m.numStates := by
  induction h with
  | refl => exact hq
  | epsilon hedge _ ih => exact ih (hm.target_lt _ _ hedge)
  | symbol hedge _ _ ih => exact ih (hm.target_lt _ _ hedge)

/-! ## ε moves -/

theorem mem_successors {label : Label} {q r : Nat} :
    r ∈ m.successors label q ↔ ⟨label, r⟩ ∈ m.edgesFrom q := by
  simp only [successors, List.mem_filterMap, Option.ite_none_right_eq_some, Option.some.injEq]
  constructor
  · rintro ⟨⟨label', r'⟩, he, rfl, rfl⟩
    exact he
  · intro he
    exact ⟨_, he, rfl, rfl⟩

theorem epsilonLeads_iff (hm : m.WellFormed) {q r : Nat} :
    m.EpsilonLeads q r ↔ ⟨.epsilon, r⟩ ∈ m.edgesFrom q := by
  rw [EpsilonLeads, Leads, mem_successors]
  exact ⟨And.left, fun h => ⟨h, hm.target_lt _ _ h⟩⟩

theorem Path.of_epsilonLeads {q r s : Nat} {w : List α}
    (h : Relation.ReflTransGen m.EpsilonLeads q r) (h' : m.Path spell r w s) :
    m.Path spell q w s := by
  induction h using Relation.ReflTransGen.head_induction_on with
  | refl => exact h'
  | head hlead _ ih => exact .epsilon (mem_successors.mp hlead.1) ih

/-! ## Running over sets -/

/-- A set of states is closed under ε moves. -/
def EpsilonClosed (m : Automaton) (states : StateSet) : Prop :=
  ∀ q r, states.contains q = true → ⟨.epsilon, r⟩ ∈ m.edgesFrom q → states.contains r = true

/-- The function moves a set of states along the edges that spell a letter, and then along ε. -/
def Moves (m : Automaton) (spell : Nat → Option α) (move : StateSet → α → StateSet) : Prop :=
  ∀ states x r, (move states x).contains r = true ↔
    ∃ q id t, states.contains q = true ∧ ⟨.symbol id, t⟩ ∈ m.edgesFrom q ∧ spell id = some x ∧
      Relation.ReflTransGen m.EpsilonLeads t r

theorem Moves.closed {move : StateSet → α → StateSet} (hm : m.WellFormed)
    (h : m.Moves spell move) (states : StateSet) (x : α) : m.EpsilonClosed (move states x) := by
  intro q r hq hedge
  obtain ⟨p, id, t, hp, hsym, hspell, hreach⟩ := (h states x q).mp hq
  exact (h states x r).mpr
    ⟨p, id, t, hp, hsym, hspell, hreach.tail ((epsilonLeads_iff hm).mpr hedge)⟩

/-- A path that spells no letter stays within a closed set. -/
theorem EpsilonClosed.contains_of_path {states : StateSet} (hs : m.EpsilonClosed states)
    {q r : Nat} (hq : states.contains q = true) (hpath : m.Path spell q [] r) :
    states.contains r = true := by
  generalize hw : ([] : List α) = w at hpath
  induction hpath with
  | refl => exact hq
  | epsilon hedge _ ih => exact ih (hs _ _ hq hedge) hw
  | symbol => cases hw

/-- A path from a closed set leaves it by an edge that spells the first letter. -/
theorem EpsilonClosed.exists_of_path {states : StateSet} (hs : m.EpsilonClosed states)
    {q r : Nat} {x : α} {rest : List α} (hq : states.contains q = true)
    (hpath : m.Path spell q (x :: rest) r) :
    ∃ p id t, states.contains p = true ∧ ⟨.symbol id, t⟩ ∈ m.edgesFrom p ∧
      spell id = some x ∧ m.Path spell t rest r := by
  generalize hw : x :: rest = w at hpath
  induction hpath with
  | refl => cases hw
  | epsilon hedge _ ih => exact ih (hs _ _ hq hedge) hw
  | symbol hedge hspell hrest _ =>
    obtain ⟨rfl, rfl⟩ := List.cons.inj hw
    exact ⟨_, _, _, hq, hedge, hspell, hrest⟩

/-- **The set after a word holds the ends of the paths that spell the word.** -/
theorem foldl_contains {move : StateSet → α → StateSet} (hm : m.WellFormed)
    (h : m.Moves spell move) (word : List α) {states : StateSet} (hs : m.EpsilonClosed states)
    {r : Nat} :
    (word.foldl move states).contains r = true ↔
      ∃ q, states.contains q = true ∧ m.Path spell q word r := by
  induction word generalizing states with
  | nil =>
    constructor
    · intro hr
      exact ⟨r, hr, .refl r⟩
    · rintro ⟨q, hq, hpath⟩
      exact hs.contains_of_path hq hpath
  | cons x rest ih =>
    rw [List.foldl_cons, ih (h.closed hm states x)]
    constructor
    · rintro ⟨q, hq, hpath⟩
      obtain ⟨p, id, t, hp, hsym, hspell, hreach⟩ := (h states x q).mp hq
      exact ⟨p, hp, .symbol hsym hspell (.of_epsilonLeads hreach hpath)⟩
    · rintro ⟨q, hq, hpath⟩
      -- ε moves before the first letter stay within the closed set
      obtain ⟨p, id, t, hp, hsym, hspell, hrest⟩ := hs.exists_of_path hq hpath
      exact ⟨t, (h states x t).mpr ⟨p, id, t, hp, hsym, hspell, .refl⟩, hrest⟩

theorem contains_step (hm : m.WellFormed) {states : StateSet} {id r : Nat} :
    (m.step states id).contains r = true ↔
      ∃ q t, states.contains q = true ∧ ⟨.symbol id, t⟩ ∈ m.edgesFrom q ∧
        Relation.ReflTransGen m.EpsilonLeads t r := by
  simp only [step, contains_closureFrom, targets, List.mem_flatMap, mem_successors,
    StateSet.mem_toList]
  constructor
  · rintro ⟨t, ⟨q, hq, hedge⟩, -, hreach⟩
    exact ⟨q, t, hq, hedge, hreach⟩
  · rintro ⟨q, t, hq, hedge, hreach⟩
    exact ⟨t, ⟨q, hq, hedge⟩, hm.target_lt _ _ hedge, hreach⟩

theorem moves_step (hm : m.WellFormed) : m.Moves some m.step := by
  intro states id r
  rw [contains_step hm]
  constructor
  · rintro ⟨q, t, hq, hedge, hreach⟩
    exact ⟨q, id, t, hq, hedge, rfl, hreach⟩
  · rintro ⟨q, id', t, hq, hedge, hid, hreach⟩
    obtain rfl := Option.some.inj hid
    exact ⟨q, t, hq, hedge, hreach⟩

theorem moves_stepChar (hm : m.WellFormed) : m.Moves m.alphabet.symbol? m.stepChar := by
  intro states c r
  rw [stepChar]
  cases hc : m.alphabet.idOf? c with
  | none =>
    simp only [StateSet.contains_empty, Bool.false_eq_true, false_iff]
    rintro ⟨q, id, t, -, -, hid, -⟩
    rw [Alphabet.symbol?_eq_some_iff, hc] at hid
    cases hid
  | some id =>
    simp only [contains_step hm]
    constructor
    · rintro ⟨q, t, hq, hedge, hreach⟩
      exact ⟨q, id, t, hq, hedge, Alphabet.symbol?_eq_some_iff.mpr hc, hreach⟩
    · rintro ⟨q, id', t, hq, hedge, hid, hreach⟩
      rw [Alphabet.symbol?_eq_some_iff, hc] at hid
      obtain rfl := Option.some.inj hid
      exact ⟨q, t, hq, hedge, hreach⟩

/-! ## Acceptance -/

theorem contains_startClosure (hm : m.WellFormed) {q : Nat} :
    m.startClosure.contains q = true ↔ Relation.ReflTransGen m.EpsilonLeads m.start q := by
  rw [startClosure, closureOf, contains_closureFrom]
  constructor
  · rintro ⟨p, hp, -, hreach⟩
    rw [List.mem_singleton.mp hp] at hreach
    exact hreach
  · intro hreach
    exact ⟨m.start, by simp, hm.start_lt, hreach⟩

theorem epsilonClosed_startClosure (hm : m.WellFormed) : m.EpsilonClosed m.startClosure := by
  intro q r hq hedge
  rw [contains_startClosure hm] at hq ⊢
  exact hq.tail ((epsilonLeads_iff hm).mpr hedge)

/-- Reading from the closure of the start accepts the words of the language. -/
theorem acceptsAny_foldl {move : StateSet → α → StateSet} (hm : m.WellFormed)
    (h : m.Moves spell move) (word : List α) :
    m.acceptsAny (word.foldl move m.startClosure) = true ↔ word ∈ m.language spell := by
  rw [acceptsAny, StateSet.intersects_iff, mem_language]
  constructor
  · rintro ⟨r, hr, hacc⟩
    obtain ⟨q, hq, hpath⟩ :=
      (foldl_contains hm h word (epsilonClosed_startClosure hm)).mp hr
    exact ⟨r, hacc, .of_epsilonLeads ((contains_startClosure hm).mp hq) hpath⟩
  · rintro ⟨r, hacc, hpath⟩
    exact ⟨r, (foldl_contains hm h word (epsilonClosed_startClosure hm)).mpr
      ⟨m.start, (contains_startClosure hm).mpr .refl, hpath⟩, hacc⟩

/-- **A well-formed automaton accepts the rows of numbers that its accepting paths spell.** -/
theorem acceptsSymbols_iff (hm : m.WellFormed) (ids : List Nat) :
    m.acceptsSymbols ids = true ↔ ids ∈ m.language some := by
  rw [acceptsSymbols_eq, acceptsAny_foldl hm (moves_step hm)]

/-- **A well-formed automaton accepts the words that its accepting paths spell.** -/
theorem accepts_iff (hm : m.WellFormed) (word : String) :
    m.accepts word = true ↔ word.toList ∈ m.language m.alphabet.symbol? := by
  rw [accepts_eq, statesAfter, acceptsAny_foldl hm (moves_stepChar hm)]

end RegularLanguages.Automaton
