import RegularLanguages.Automaton.Lift
import RegularLanguages.Proofs.Automaton.Path
import RegularLanguages.Proofs.Lists

/-!
# Well-formed automata over another alphabet

Over another alphabet an edge carries the number of the same character, or it is dropped. The table
of the new numbers goes through the characters (`getD_renumbering`), and a character has one number
in each alphabet. So two edges that differ still differ afterwards, and the new numbers are numbers
of the new alphabet.
-/

namespace RegularLanguages.Automaton

variable {m n : Automaton} {alphabet : Alphabet}

/-! ## Labels -/

/-- The table goes from a number to its character, and on to the number of the character. -/
theorem getD_renumbering_eq (a b : Alphabet) (i : Nat) :
    (a.renumbering b).getD i none = (a.symbol? i).bind b.idOf? := by
  rw [Alphabet.renumbering, Array.getD_eq_getD_getElem?, List.getElem?_toArray,
    List.getElem?_map, Alphabet.symbol?]
  cases a.symbols[i]? <;> rfl

/-- The table leads from one number to another if they stand for the same character. -/
theorem getD_renumbering {a b : Alphabet} {i j : Nat} :
    (a.renumbering b).getD i none = some j ↔
      ∃ c, a.symbol? i = some c ∧ b.symbol? j = some c := by
  rw [getD_renumbering_eq, Option.bind_eq_some_iff]
  simp only [Alphabet.symbol?_eq_some_iff]

/-- A label that is kept is known in the new alphabet. -/
theorem known_of_renumberLabel {a b : Alphabet} {l l' : Label}
    (h : renumberLabel (a.renumbering b) l = some l') : l'.Known b := by
  cases l with
  | epsilon =>
    obtain rfl := Option.some.inj h
    exact trivial
  | symbol i =>
    obtain ⟨j, hj, rfl⟩ := Option.map_eq_some_iff.mp h
    obtain ⟨c, -, hc⟩ := getD_renumbering.mp hj
    exact Alphabet.lt_size_of_symbol? hc

/-- Labels that become the same label were the same. -/
theorem eq_of_renumberLabel {a b : Alphabet} {k l l' : Label}
    (hk : renumberLabel (a.renumbering b) k = some l')
    (hl : renumberLabel (a.renumbering b) l = some l') : k = l := by
  cases k with
  | epsilon =>
    obtain rfl := Option.some.inj hk
    cases l with
    | epsilon => rfl
    | symbol i =>
      obtain ⟨j, -, heq⟩ := Option.map_eq_some_iff.mp hl
      cases heq
  | symbol i =>
    obtain ⟨j, hj, rfl⟩ := Option.map_eq_some_iff.mp hk
    cases l with
    | epsilon => cases Option.some.inj hl
    | symbol i' =>
      obtain ⟨j', hj', heq⟩ := Option.map_eq_some_iff.mp hl
      obtain rfl := Label.symbol.inj heq
      -- both numbers stand for the character of the new number, which has one number only
      obtain ⟨c, hi, hc⟩ := getD_renumbering.mp hj
      obtain ⟨c', hi', hc'⟩ := getD_renumbering.mp hj'
      obtain rfl := Option.some.inj (hc.symm.trans hc')
      rw [Alphabet.symbol?_eq_some_iff] at hi hi'
      rw [Option.some.inj (hi.symm.trans hi')]

/-! ## Edges -/

theorem mem_renumberEdge {table : Array (Option Nat)} {e f : Edge} :
    renumberEdge table e = some f ↔
      renumberLabel table e.label = some f.label ∧ f.target = e.target := by
  rw [renumberEdge, Option.map_eq_some_iff]
  constructor
  · rintro ⟨l, hl, rfl⟩
    exact ⟨hl, rfl⟩
  · rintro ⟨hl, htarget⟩
    exact ⟨f.label, hl, by rw [← htarget]⟩

/-- Edges that become the same edge were the same. -/
theorem eq_of_renumberEdge {a b : Alphabet} {d e f : Edge}
    (hd : renumberEdge (a.renumbering b) d = some f)
    (he : renumberEdge (a.renumbering b) e = some f) : d = e := by
  obtain ⟨hlabel, htarget⟩ := mem_renumberEdge.mp hd
  obtain ⟨hlabel', htarget'⟩ := mem_renumberEdge.mp he
  obtain ⟨l, t⟩ := d
  obtain ⟨l', t'⟩ := e
  rw [Edge.mk.injEq]
  exact ⟨eq_of_renumberLabel hlabel hlabel', htarget.symm.trans htarget'⟩

theorem edgesFrom_relabel_of_ne (h : alphabet ≠ m.alphabet) (q : Nat) :
    (m.relabel alphabet).edgesFrom q =
      (m.edgesFrom q).filterMap (renumberEdge (m.alphabet.renumbering alphabet)) := by
  rw [relabel, if_neg h, edgesFrom, edgesFrom, Array.getD_eq_getD_getElem?,
    Array.getD_eq_getD_getElem?, Array.getElem?_map]
  cases m.edges[q]? <;> rfl

theorem relabel_self (m : Automaton) : m.relabel m.alphabet = m := if_pos rfl

@[simp] theorem numStates_relabel (m : Automaton) (alphabet : Alphabet) :
    (m.relabel alphabet).numStates = m.numStates := by
  unfold relabel
  split
  · rfl
  · simp [numStates]

@[simp] theorem alphabet_relabel (m : Automaton) (alphabet : Alphabet) :
    (m.relabel alphabet).alphabet = alphabet := by
  unfold relabel
  split
  · next h => exact h.symm
  · rfl

@[simp] theorem start_relabel (m : Automaton) (alphabet : Alphabet) :
    (m.relabel alphabet).start = m.start := by
  unfold relabel
  split <;> rfl

@[simp] theorem accepting_relabel (m : Automaton) (alphabet : Alphabet) :
    (m.relabel alphabet).accepting = m.accepting := by
  unfold relabel
  split <;> rfl

/-! ## Well-formed automata -/

namespace WellFormed

/-- **An automaton stays well formed over another alphabet**, whether or not edges are dropped. -/
theorem relabel (h : m.WellFormed) (alphabet : Alphabet) : (m.relabel alphabet).WellFormed := by
  by_cases hsame : alphabet = m.alphabet
  · rw [Automaton.relabel, if_pos hsame]
    exact h
  · have hmem : ∀ q f, f ∈ (m.relabel alphabet).edgesFrom q →
        ∃ e ∈ m.edgesFrom q, renumberEdge (m.alphabet.renumbering alphabet) e = some f := by
      intro q f hf
      rw [edgesFrom_relabel_of_ne hsame] at hf
      exact List.mem_filterMap.mp hf
    refine ⟨?_, ?_, fun q f hf => ?_, fun q f hf => ?_, fun q => ?_⟩
    · rw [start_relabel, numStates_relabel]
      exact h.start_lt
    · rw [accepting_relabel, numStates_relabel]
      exact h.accepting_lt
    · obtain ⟨e, he, hef⟩ := hmem q f hf
      rw [numStates_relabel, (mem_renumberEdge.mp hef).2]
      exact h.target_lt q e he
    · obtain ⟨e, -, hef⟩ := hmem q f hf
      rw [alphabet_relabel]
      exact known_of_renumberLabel (mem_renumberEdge.mp hef).1
    · rw [edgesFrom_relabel_of_ne hsame]
      exact (h.edges_nodup q).filterMap fun e e' f hf hf' => eq_of_renumberEdge hf hf'

theorem lift (h : m.WellFormed) (hn : m.lift alphabet = .ok n) : n.WellFormed := by
  unfold Automaton.lift at hn
  split at hn
  · cases hn
  · obtain rfl := Except.ok.inj hn
    exact h.relabel alphabet

end WellFormed

/-! ## The same automaton -/

/-- Both labels read nothing, or both read the same character, each with its number in its alphabet. -/
inductive SameLabel (a b : Alphabet) : Label → Label → Prop
  | epsilon : SameLabel a b .epsilon .epsilon
  | symbol {i j : Nat} {c : Char} (hi : a.symbol? i = some c) (hj : b.symbol? j = some c) :
      SameLabel a b (.symbol i) (.symbol j)

/-- The second automaton is the first one, with its labels in another alphabet. -/
structure Transcription (m n : Automaton) : Prop where
  numStates_eq : n.numStates = m.numStates
  start_eq : n.start = m.start
  accepting_eq : n.accepting = m.accepting
  transitions : List.Forall₂
    (fun s t => t.1 = s.1 ∧ SameLabel m.alphabet n.alphabet s.2.1 t.2.1 ∧ t.2.2 = s.2.2)
    m.transitions n.transitions

theorem sameLabel_self {a : Alphabet} {l : Label} (hl : l.Known a) : SameLabel a a l l := by
  cases l with
  | epsilon => exact .epsilon
  | symbol i =>
    have hi : a.symbol? i = some a.symbols[i] := List.getElem?_eq_getElem hl
    exact .symbol hi hi

theorem exists_sameLabel {a b : Alphabet} (hsub : ∀ c ∈ a.symbols, c ∈ b.symbols) {l : Label}
    (hl : l.Known a) :
    ∃ l', renumberLabel (a.renumbering b) l = some l' ∧ SameLabel a b l l' := by
  cases l with
  | epsilon => exact ⟨.epsilon, rfl, .epsilon⟩
  | symbol i =>
    have hi : a.symbol? i = some a.symbols[i] := List.getElem?_eq_getElem hl
    obtain ⟨j, hj⟩ := List.mem_iff_getElem?.mp (hsub _ (List.getElem_mem hl))
    refine ⟨.symbol j, ?_, .symbol hi hj⟩
    rw [renumberLabel, getD_renumbering.mpr ⟨_, hi, hj⟩]
    rfl

theorem WellFormed.forall₂_edgesFrom_relabel (hm : m.WellFormed)
    (hsub : ∀ c ∈ m.alphabet.symbols, c ∈ alphabet.symbols) (q : Nat) :
    List.Forall₂ (fun e f => SameLabel m.alphabet alphabet e.label f.label ∧ f.target = e.target)
      (m.edgesFrom q) ((m.relabel alphabet).edgesFrom q) := by
  by_cases hsame : alphabet = m.alphabet
  · subst hsame
    rw [relabel_self, List.forall₂_same]
    exact fun e he => ⟨sameLabel_self (hm.label_known q e he), rfl⟩
  · rw [edgesFrom_relabel_of_ne hsame]
    refine forall₂_filterMap fun e he => ?_
    obtain ⟨l, hl, hsame⟩ := exists_sameLabel hsub (hm.label_known q e he)
    exact ⟨⟨l, e.target⟩, mem_renumberEdge.mpr ⟨hl, rfl⟩, hsame, rfl⟩

/-- **Over a larger alphabet the automaton stays the same**, and in the same order. -/
theorem WellFormed.transcription_relabel (hm : m.WellFormed)
    (hsub : ∀ c ∈ m.alphabet.symbols, c ∈ alphabet.symbols) :
    Transcription m (m.relabel alphabet) where
  numStates_eq := numStates_relabel m alphabet
  start_eq := start_relabel m alphabet
  accepting_eq := accepting_relabel m alphabet
  transitions := by
    rw [transitions, transitions, numStates_relabel, alphabet_relabel]
    refine List.rel_flatMap (R := Eq) (List.forall₂_refl _) ?_
    rintro q _ rfl
    rw [List.forall₂_map_left_iff, List.forall₂_map_right_iff]
    exact (hm.forall₂_edgesFrom_relabel hsub q).imp fun _ _ h => ⟨rfl, h⟩

/-- Lifting succeeds if the alphabet really is larger. -/
theorem lift_eq_ok (hsub : ∀ c ∈ m.alphabet.symbols, c ∈ alphabet.symbols) :
    m.lift alphabet = .ok (m.relabel alphabet) := by
  have hnone : m.alphabet.symbols.find? (fun c => !alphabet.contains c) = none := by
    rw [List.find?_eq_none]
    intro c hc
    simp [Alphabet.contains, Alphabet.idOf?, hsub c hc]
  rw [Automaton.lift, hnone]

/-! ## Two automata over one alphabet -/

/-- Two automata after alignment are over one alphabet and still well formed. -/
theorem wellFormed_align {a b : Automaton} (ha : a.WellFormed) (hb : b.WellFormed) :
    (align a b).1.WellFormed ∧ (align a b).2.WellFormed ∧
      (align a b).2.alphabet = (align a b).1.alphabet := by
  unfold align
  split
  · next h => exact ⟨ha, hb, h.symm⟩
  · refine ⟨ha.relabel _, hb.relabel _, ?_⟩
    rw [alphabet_relabel, alphabet_relabel]

end RegularLanguages.Automaton
