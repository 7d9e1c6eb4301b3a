import RegularLanguages.Proofs.Alphabet
import RegularLanguages.Proofs.Diagram.WellFormed
import RegularLanguages.Proofs.Regex.Ambiguity

/-!
# Which diagrams are valid

The checks of a diagram are spread over its parts, and each comes when its part is reached. `Valid`
collects what they ask for. A diagram has an automaton if and only if it is valid, and the automaton is
then `drawn`, which is made without any check (`toAutomaton_eq_ok_iff`).

Each part has one lemma that says when it succeeds and with what. The symbols of the arrows are looked
up in an alphabet that was made of the symbols in use, so whether a symbol is found can be told from the
texts alone (`mem_alphabetInUse`).
-/

namespace RegularLanguages

open Spelling (Short char?)

namespace Alphabet

theorem okOrInvalid_declaredChars (texts : List String) : OkOrInvalid (declaredChars texts) := by
  intro e h
  obtain ⟨s, -, -, rfl⟩ := exists_of_declaredChars_eq_error h
  rfl

end Alphabet

namespace Diagram

variable {d : Diagram} {A : Alphabet} {m n : Automaton} {e : Error}

/-! ## The alphabet -/

/-- The alphabet of the characters that the symbols in use stand for. -/
def alphabetInUse (d : Diagram) : Alphabet := .ofChars (d.symbolsInUse.filterMap char?)

theorem toAlphabet_eq_ok_iff : d.toAlphabet = .ok A ↔
    (∀ s ∈ d.symbolsInUse, Spelling.emptySetSign ∉ s.toList ∧ Short s) ∧ A = d.alphabetInUse := by
  unfold toAlphabet
  split
  · next hany =>
    obtain ⟨s, hs, hmem⟩ := List.any_eq_true.mp hany
    refine iff_of_false (by rintro ⟨⟩) fun h => (h.1 s hs).1 ?_
    exact List.contains_iff_mem.mp hmem
  · next hany =>
    have hnone : ∀ s ∈ d.symbolsInUse, Spelling.emptySetSign ∉ s.toList := by
      intro s hs hmem
      exact hany (List.any_eq_true.mpr ⟨s, hs, List.contains_iff_mem.mpr hmem⟩)
    constructor
    · intro h
      obtain ⟨cs, hcs, rfl⟩ := exists_of_map_eq_ok h
      obtain ⟨hshort, rfl⟩ := Alphabet.declaredChars_eq_ok_iff.mp hcs
      exact ⟨fun s hs => ⟨hnone s hs, hshort s hs⟩, rfl⟩
    · rintro ⟨h, rfl⟩
      rw [Alphabet.ofDeclared,
        Alphabet.declaredChars_eq_ok_iff.mpr ⟨fun s hs => (h s hs).2, rfl⟩]
      rfl

theorem okOrInvalid_toAlphabet (d : Diagram) : OkOrInvalid d.toAlphabet := by
  unfold toAlphabet
  split
  · exact okOrInvalid_error rfl
  · exact (Alphabet.okOrInvalid_declaredChars _).map _

/-- The alphabet has the characters of the symbols in use. None of these is left out for being `∅`. -/
theorem mem_alphabetInUse
    (h : ∀ s ∈ d.symbolsInUse, Spelling.emptySetSign ∉ s.toList ∧ Short s) {c : Char} :
    c ∈ d.alphabetInUse.symbols ↔ ∃ s ∈ d.symbolsInUse, (Spelling.normalise s).toList = [c] := by
  rw [alphabetInUse, Alphabet.mem_symbols_ofChars, List.mem_filterMap]
  constructor
  · rintro ⟨⟨s, hs, hc⟩, -⟩
    exact ⟨s, hs, (h s hs).2.char?_eq_some_iff.mp hc⟩
  · rintro ⟨s, hs, hc⟩
    refine ⟨⟨s, hs, Spelling.char?_of_toList hc⟩, ?_⟩
    rintro rfl
    have hmem : Spelling.emptySetSign ∈ (Spelling.normalise s).toList := hc ▸ List.mem_singleton_self _
    rw [Spelling.toList_normalise] at hmem
    obtain ⟨x, hx, hcanonical⟩ := List.mem_filterMap.mp hmem
    exact (h s hs).1 (Spelling.eq_of_canonicalChar?_emptySetSign hcanonical ▸ hx)

/-! ## Names -/

theorem firstRepeated?_eq_none_iff {before names : List String} :
    firstRepeated? before names = none ↔ names.Nodup ∧ ∀ name ∈ names, name ∉ before := by
  induction names generalizing before with
  | nil => simp [firstRepeated?]
  | cons name rest ih =>
    rw [firstRepeated?, List.nodup_cons, List.forall_mem_cons]
    split
    · next hmem => exact iff_of_false (by rintro ⟨⟩) fun h => h.2.1 hmem
    · next hnot =>
      rw [ih]
      constructor
      · rintro ⟨hnodup, hrest⟩
        exact ⟨⟨fun hmem => hrest name hmem List.mem_cons_self, hnodup⟩, hnot,
          fun x hx hbefore => hrest x hx (List.mem_cons_of_mem name hbefore)⟩
      · rintro ⟨⟨hname, hnodup⟩, -, hrest⟩
        refine ⟨hnodup, fun x hx hmem => ?_⟩
        rcases List.mem_cons.mp hmem with rfl | hbefore
        · exact hname hx
        · exact hrest x hx hbefore

/-- The number of a declared name is its place. -/
theorem stateNumber_eq_ok_iff {name : String} {q : Nat} :
    d.stateNumber name = .ok q ↔ name ∈ d.states ∧ q = d.states.idxOf name := by
  unfold stateNumber
  by_cases hmem : name ∈ d.states
  · rw [idxOf?_of_mem hmem]
    simp [hmem, eq_comm]
  · rw [List.idxOf?_eq_none_iff.mpr hmem]
    exact iff_of_false (by rintro ⟨⟩) fun h => hmem h.1

theorem okOrInvalid_stateNumber (d : Diagram) (name : String) : OkOrInvalid (d.stateNumber name) := by
  unfold stateNumber
  split
  · exact okOrInvalid_ok _
  · exact okOrInvalid_error rfl

/-! ## Labels -/

/-- The label of a symbol that stands for a symbol of the alphabet, or for nothing. -/
def labelOf (A : Alphabet) (symbol : String) : Label :=
  match char? symbol with
  | none => .epsilon
  | some c => .symbol (A.symbols.idxOf c)

theorem labelOf_of_eq_none {symbol : String} (h : char? symbol = none) :
    labelOf A symbol = .epsilon := by
  rw [labelOf, h]

theorem labelOf_of_eq_some {symbol : String} {c : Char} (h : char? symbol = some c) :
    labelOf A symbol = .symbol (A.symbols.idxOf c) := by
  rw [labelOf, h]

/-- The symbol stands for one character at most, and for none that the alphabet lacks. -/
structure Readable (A : Alphabet) (symbol : String) : Prop where
  short : Short symbol
  mem : ∀ c, char? symbol = some c → c ∈ A.symbols

theorem label_eq_ok_iff {symbol : String} {l : Label} :
    label A symbol = .ok l ↔ Readable A symbol ∧ l = labelOf A symbol := by
  unfold label
  rcases Alphabet.ofText_cases symbol with
    ⟨hshort, hchar, hread⟩ | ⟨c, hshort, hchar, hread⟩ | ⟨hlong, hread⟩
  · have hreadable : Readable A symbol := ⟨hshort, fun c hc => absurd (hchar.symm.trans hc) (by simp)⟩
    rw [hread, labelOf_of_eq_none hchar]
    simp [hreadable, eq_comm]
  · have hreadable : Readable A symbol ↔ c ∈ A.symbols := by
      refine ⟨fun h => h.mem c hchar, fun hmem => ⟨hshort, fun d hd => ?_⟩⟩
      rw [← Option.some.inj (hchar.symm.trans hd)]
      exact hmem
    rw [hread, labelOf_of_eq_some hchar, hreadable]
    by_cases hmem : c ∈ A.symbols
    · simp [Alphabet.idOf?, idxOf?_of_mem hmem, hmem, eq_comm]
    · simp [Alphabet.idOf?, List.idxOf?_eq_none_iff.mpr hmem, hmem]
  · rw [hread]
    exact iff_of_false (by rintro ⟨⟩) fun h => hlong h.1.short

theorem okOrInvalid_label (A : Alphabet) (symbol : String) : OkOrInvalid (label A symbol) := by
  unfold label
  split
  · exact okOrInvalid_ok _
  · split
    · exact okOrInvalid_ok _
    · exact okOrInvalid_error rfl
  · exact okOrInvalid_error rfl

/-! ## Accepting states and arrows -/

theorem addAccepting_eq_ok_iff {names : List String} : d.addAccepting names m = .ok n ↔
    (∀ name ∈ names, name ∈ d.states) ∧ n = m.addAllAccepting (names.map d.states.idxOf) := by
  induction names generalizing m with
  | nil => simp [addAccepting, Automaton.addAllAccepting, eq_comm]
  | cons name rest ih =>
    rw [addAccepting, List.forall_mem_cons]
    cases hq : d.stateNumber name with
    | ok q =>
      obtain ⟨hmem, rfl⟩ := stateNumber_eq_ok_iff.mp hq
      simp only [ih, hmem, true_and]
      rfl
    | error e =>
      refine iff_of_false (by rintro ⟨⟩) fun h => ?_
      rw [stateNumber_eq_ok_iff.mpr ⟨h.1.1, rfl⟩] at hq
      cases hq

theorem okOrInvalid_addAccepting (d : Diagram) (names : List String) (m : Automaton) :
    OkOrInvalid (d.addAccepting names m) := by
  induction names generalizing m with
  | nil => exact okOrInvalid_ok _
  | cons name rest ih =>
    rw [addAccepting]
    split
    · exact ih _
    · next e he => exact okOrInvalid_error (okOrInvalid_stateNumber d name e he)

/-- The ends of the arrow are declared, and its symbol is readable. -/
structure Placed (d : Diagram) (A : Alphabet) (a : Arrow) : Prop where
  source_mem : a.source ∈ d.states
  target_mem : a.target ∈ d.states
  readable : Readable A a.symbol

/-- Adds the transition of an arrow. -/
def draw (d : Diagram) (A : Alphabet) (m : Automaton) (a : Arrow) : Automaton :=
  m.addTransition (d.states.idxOf a.source) (labelOf A a.symbol) (d.states.idxOf a.target)

theorem addArrow_eq_ok_iff {a : Arrow} :
    d.addArrow m a = .ok n ↔ d.Placed m.alphabet a ∧ n = d.draw m.alphabet m a := by
  constructor
  · intro h
    obtain ⟨source, hsource, h⟩ := exists_of_bind_eq_ok h
    obtain ⟨target, htarget, h⟩ := exists_of_bind_eq_ok h
    obtain ⟨l, hl, rfl⟩ := exists_of_map_eq_ok h
    obtain ⟨hsourceMem, rfl⟩ := stateNumber_eq_ok_iff.mp hsource
    obtain ⟨htargetMem, rfl⟩ := stateNumber_eq_ok_iff.mp htarget
    obtain ⟨hreadable, rfl⟩ := label_eq_ok_iff.mp hl
    exact ⟨⟨hsourceMem, htargetMem, hreadable⟩, rfl⟩
  · rintro ⟨h, rfl⟩
    rw [addArrow, stateNumber_eq_ok_iff.mpr ⟨h.source_mem, rfl⟩,
      stateNumber_eq_ok_iff.mpr ⟨h.target_mem, rfl⟩, label_eq_ok_iff.mpr ⟨h.readable, rfl⟩]
    rfl

theorem okOrInvalid_addArrow (d : Diagram) (m : Automaton) (a : Arrow) :
    OkOrInvalid (d.addArrow m a) :=
  (okOrInvalid_stateNumber d _).bind fun _ => (okOrInvalid_stateNumber d _).bind fun _ =>
    (okOrInvalid_label _ _).map _

theorem addArrows_eq_ok_iff {arrows : List Arrow} (hm : m.alphabet = A) :
    d.addArrows arrows m = .ok n ↔
      (∀ a ∈ arrows, d.Placed A a) ∧ n = arrows.foldl (d.draw A) m := by
  induction arrows generalizing m with
  | nil => simp [addArrows, eq_comm]
  | cons a rest ih =>
    subst hm
    rw [addArrows, List.forall_mem_cons, List.foldl_cons]
    cases hnext : d.addArrow m a with
    | ok next =>
      obtain ⟨hplaced, rfl⟩ := addArrow_eq_ok_iff.mp hnext
      have halphabet : (d.draw m.alphabet m a).alphabet = m.alphabet := rfl
      simp only [ih halphabet, hplaced, true_and]
    | error e =>
      refine iff_of_false (by rintro ⟨⟩) fun h => ?_
      rw [addArrow_eq_ok_iff.mpr ⟨h.1.1, rfl⟩] at hnext
      cases hnext

theorem okOrInvalid_addArrows (d : Diagram) (arrows : List Arrow) (m : Automaton) :
    OkOrInvalid (d.addArrows arrows m) := by
  induction arrows generalizing m with
  | nil => exact okOrInvalid_ok _
  | cons a rest ih =>
    rw [addArrows]
    split
    · exact ih _
    · next e he => exact okOrInvalid_error (okOrInvalid_addArrow d m a e he)

/-! ## The diagram -/

/-- What a diagram must keep to. -/
structure Valid (d : Diagram) : Prop where
  /-- No symbol in use contains `∅`, and each stands for one character at most. -/
  symbols : ∀ s ∈ d.symbolsInUse, Spelling.emptySetSign ∉ s.toList ∧ Short s
  states_nodup : d.states.Nodup
  start_mem : d.start ∈ d.states
  accepting_mem : ∀ name ∈ d.accepting, name ∈ d.states
  source_mem : ∀ a ∈ d.arrows, a.source ∈ d.states
  target_mem : ∀ a ∈ d.arrows, a.target ∈ d.states
  /-- Each arrow stands for one character at most, and some symbol in use stands for it. -/
  arrow_short : ∀ a ∈ d.arrows, Short a.symbol
  arrow_mem : ∀ a ∈ d.arrows, ∀ c, (Spelling.normalise a.symbol).toList = [c] →
    ∃ s ∈ d.symbolsInUse, (Spelling.normalise s).toList = [c]

theorem Valid.placed (h : d.Valid) {a : Arrow} (ha : a ∈ d.arrows) : d.Placed d.alphabetInUse a where
  source_mem := h.source_mem a ha
  target_mem := h.target_mem a ha
  readable := ⟨h.arrow_short a ha, fun c hc => (mem_alphabetInUse h.symbols).mpr
    (h.arrow_mem a ha c ((h.arrow_short a ha).char?_eq_some_iff.mp hc))⟩

/-- The automaton of a valid diagram. -/
def drawn (d : Diagram) : Automaton :=
  d.arrows.foldl (d.draw d.alphabetInUse)
    ((bare d.alphabetInUse d.states.length (d.states.idxOf d.start)).addAllAccepting
      (d.accepting.map d.states.idxOf))

/-- The alphabet stays the one that the automaton is begun with. -/
theorem alphabet_addAllAccepting_bare (A : Alphabet) (count start : Nat) (qs : List Nat) :
    ((bare A count start).addAllAccepting qs).alphabet = A := by
  rw [Automaton.alphabet_addAllAccepting]
  exact Automaton.alphabet_addStates _ _

/-- **A diagram has an automaton if and only if it is valid.** -/
theorem toAutomaton_eq_ok_iff : d.toAutomaton = .ok m ↔ d.Valid ∧ m = d.drawn := by
  constructor
  · intro h
    obtain ⟨A, hA, h⟩ := exists_of_bind_eq_ok h
    obtain ⟨hsymbols, rfl⟩ := toAlphabet_eq_ok_iff.mp hA
    split at h
    · cases h
    · next hnone =>
      obtain ⟨start, hstart, h⟩ := exists_of_bind_eq_ok h
      obtain ⟨n, hn, h⟩ := exists_of_bind_eq_ok h
      obtain ⟨hstartMem, rfl⟩ := stateNumber_eq_ok_iff.mp hstart
      obtain ⟨haccepting, rfl⟩ := addAccepting_eq_ok_iff.mp hn
      obtain ⟨hplaced, rfl⟩ :=
        (addArrows_eq_ok_iff (alphabet_addAllAccepting_bare _ _ _ _)).mp h
      refine ⟨⟨hsymbols, (firstRepeated?_eq_none_iff.mp hnone).1, hstartMem, haccepting,
        fun a ha => (hplaced a ha).source_mem, fun a ha => (hplaced a ha).target_mem,
        fun a ha => (hplaced a ha).readable.short, fun a ha c hc => ?_⟩, rfl⟩
      exact (mem_alphabetInUse hsymbols).mp
        ((hplaced a ha).readable.mem c (Spelling.char?_of_toList hc))
  · rintro ⟨h, rfl⟩
    have hnone : firstRepeated? [] d.states = none :=
      firstRepeated?_eq_none_iff.mpr ⟨h.states_nodup, fun _ _ => List.not_mem_nil⟩
    rw [toAutomaton, toAlphabet_eq_ok_iff.mpr ⟨h.symbols, rfl⟩, Except.bind]
    simp only [hnone]
    rw [stateNumber_eq_ok_iff.mpr ⟨h.start_mem, rfl⟩, Except.bind,
      addAccepting_eq_ok_iff.mpr ⟨h.accepting_mem, rfl⟩, Except.bind]
    exact (addArrows_eq_ok_iff (alphabet_addAllAccepting_bare _ _ _ _)).mpr
      ⟨fun a ha => h.placed ha, rfl⟩

/-- What is wrong with a diagram that has no automaton is wrong with what a person drew. -/
theorem okOrInvalid_toAutomaton (d : Diagram) : OkOrInvalid d.toAutomaton := by
  refine (okOrInvalid_toAlphabet d).bind fun A => ?_
  split
  · exact okOrInvalid_error rfl
  · exact (okOrInvalid_stateNumber d _).bind fun _ =>
      (okOrInvalid_addAccepting d _ _).bind fun _ => okOrInvalid_addArrows d _ _

end Diagram

end RegularLanguages
