import RegularLanguages.Proofs.Automaton.Alignment
import RegularLanguages.Proofs.Automaton.Renumbering

/-!
# Lifting to larger alphabets

An automaton can be lifted to an alphabet if and only if that alphabet has all of its symbols, also
those that no edge reads. A lifted automaton is a transcription: the same states and the same edges in
the same order, each of which reads the same character. So it accepts the same words.

Lifting goes through the characters, and a character has one number in each alphabet. So a second
lifting undoes the numbers of the first one (`renumber_renumber`), and it does not matter whether the
operands of a construction were lifted beforehand.
-/

namespace RegularLanguages.Automaton

variable {m n a b : Automaton} {A S T : Alphabet}

/-! ## Two tables in a row -/

/-- From the smallest alphabet through the middle one to the largest is the direct way. -/
theorem renumberLabel_bind (hsub : ∀ c ∈ A.symbols, c ∈ S.symbols) (l : Label) :
    (renumberLabel (A.renumbering S) l).bind (renumberLabel (S.renumbering T)) =
      renumberLabel (A.renumbering T) l := by
  cases l with
  | epsilon => rfl
  | symbol i =>
    rw [renumberLabel, renumberLabel, getD_renumbering_eq, getD_renumbering_eq]
    cases hi : A.symbol? i with
    | none => rfl
    | some c =>
      -- the middle alphabet has the character, and its number there stands for it again
      obtain ⟨j, hj⟩ := List.mem_iff_getElem?.mp (hsub c (List.mem_of_getElem? hi))
      have hmiddle : (S.renumbering T).getD j none = T.idOf? c := by
        rw [getD_renumbering_eq, Alphabet.symbol?, hj, Option.bind_some]
      rw [Option.bind_some, Option.bind_some, Alphabet.symbol?_eq_some_iff.mp hj, Option.map_some,
        Option.bind_some, renumberLabel, hmiddle]

theorem renumberEdge_bind (hsub : ∀ c ∈ A.symbols, c ∈ S.symbols) (e : Edge) :
    (renumberEdge (A.renumbering S) e).bind (renumberEdge (S.renumbering T)) =
      renumberEdge (A.renumbering T) e := by
  rw [renumberEdge, renumberEdge, ← renumberLabel_bind (T := T) hsub e.label]
  cases renumberLabel (A.renumbering S) e.label <;> rfl

theorem renumber_renumber (hsub : ∀ c ∈ A.symbols, c ∈ S.symbols) (m : Automaton) :
    (m.renumber A S).renumber S T = m.renumber A T := by
  simp only [renumber, mk.injEq, true_and, Array.map_map]
  congr 1
  funext edges
  simp only [Function.comp_apply, List.filterMap_filterMap, renumberEdge_bind hsub]

/-- **The way through an alphabet in between does not show.** -/
theorem relabel_relabel (hA : ∀ c ∈ m.alphabet.symbols, c ∈ S.symbols)
    (hS : ∀ c ∈ S.symbols, c ∈ T.symbols) : (m.relabel S).relabel T = m.relabel T := by
  by_cases hfirst : S = m.alphabet
  · rw [hfirst, relabel_self]
  · by_cases hsecond : T = S
    · have hself := relabel_self (m.relabel S)
      rw [alphabet_relabel] at hself
      rw [hsecond, hself]
    · have hdirect : T ≠ m.alphabet := by
        -- an alphabet between one and the same is that one
        rintro rfl
        exact hfirst (Alphabet.eq_of_mem_iff fun c => ⟨hS c, hA c⟩)
      have hne : T ≠ (m.relabel S).alphabet := by rwa [alphabet_relabel]
      rw [relabel_of_ne hne, alphabet_relabel, relabel_of_ne hfirst, relabel_of_ne hdirect,
        renumber_renumber hA]

/-! ## Lifting -/

theorem lift_eq_ok_iff :
    m.lift S = .ok n ↔ (∀ c ∈ m.alphabet.symbols, c ∈ S.symbols) ∧ m.relabel S = n := by
  constructor
  · intro h
    unfold lift at h
    split at h
    · cases h
    · next hnone =>
      refine ⟨fun c hc => ?_, Except.ok.inj h⟩
      simpa [Alphabet.contains, Alphabet.idOf?] using List.find?_eq_none.mp hnone c hc
  · rintro ⟨hsub, rfl⟩
    exact lift_eq_ok hsub

/-- The error names a symbol that the alphabet lacks. -/
theorem exists_lift_eq_error (h : ¬ ∀ c ∈ m.alphabet.symbols, c ∈ S.symbols) :
    ∃ c ∈ m.alphabet.symbols, c ∉ S.symbols ∧ m.lift S = .error (.missingSymbol c S) := by
  cases hfind : m.alphabet.symbols.find? (fun c => !S.contains c) with
  | none =>
    have hok : m.lift S = .ok (m.relabel S) := by rw [lift, hfind]
    exact absurd (lift_eq_ok_iff.mp hok).1 h
  | some c =>
    have hmissing := List.find?_some hfind
    refine ⟨c, List.mem_of_find?_eq_some hfind, ?_, by rw [lift, hfind]⟩
    simpa [Alphabet.contains, Alphabet.idOf?] using hmissing

theorem WellFormed.accepts_relabel (hm : m.WellFormed)
    (hsub : ∀ c ∈ m.alphabet.symbols, c ∈ S.symbols) (w : String) :
    (m.relabel S).accepts w = m.accepts w := by
  rw [Bool.eq_iff_iff, accepts_iff (hm.relabel S), accepts_iff hm, alphabet_relabel,
    language_relabel hm hsub]

/-! ## Lifted operands -/

/-- Operands over one alphabet are not touched any more. -/
theorem union_relabel (a b : Automaton) :
    (a.relabel (a.alphabet.union b.alphabet)).union (b.relabel (a.alphabet.union b.alphabet)) =
      a.union b := by
  rw [union, union, align_eq a b, align_of_alphabet_eq]
  rw [alphabet_relabel, alphabet_relabel]

theorem concat_relabel (a b : Automaton) :
    (a.relabel (a.alphabet.union b.alphabet)).concat (b.relabel (a.alphabet.union b.alphabet)) =
      a.concat b := by
  rw [concat, concat, align_eq a b, align_of_alphabet_eq]
  rw [alphabet_relabel, alphabet_relabel]

/-- **Lifting changes nothing but the numbers of the symbols.** It succeeds if and only if the new
alphabet has every symbol of the automaton, used or not; otherwise the error names one that it lacks.
The lifted automaton has the same states, start and accepting states and the same edges in the same
order, each with the same character or none, and it accepts the same words. To lift it once more is to
lift the first automaton that far. So a union and a concatenation are those of the operands lifted to
the union of their alphabets. -/
theorem lift_preserves (ha : a.WellFormed) (b : Automaton) :
    (∀ S, ((∃ n, a.lift S = .ok n) ↔ ∀ c ∈ a.alphabet.symbols, c ∈ S.symbols) ∧
      ((¬ ∀ c ∈ a.alphabet.symbols, c ∈ S.symbols) → ∃ c ∈ a.alphabet.symbols, c ∉ S.symbols ∧
        a.lift S = .error (.missingSymbol c S))) ∧
      (∀ S n, a.lift S = .ok n →
        n.alphabet = S ∧ Transcription a n ∧ (∀ w : String, n.accepts w = a.accepts w) ∧
          ∀ T k, n.lift T = .ok k → a.lift T = .ok k) ∧
      ∃ l r, a.lift (a.alphabet.union b.alphabet) = .ok l ∧
        b.lift (a.alphabet.union b.alphabet) = .ok r ∧
        a.union b = l.union r ∧ a.concat b = l.concat r := by
  refine ⟨fun S => ⟨⟨?_, fun hsub => ⟨_, lift_eq_ok hsub⟩⟩, exists_lift_eq_error⟩, ?_, ?_⟩
  · rintro ⟨n, hn⟩
    exact (lift_eq_ok_iff.mp hn).1
  · intro S n hn
    obtain ⟨hsub, rfl⟩ := lift_eq_ok_iff.mp hn
    refine ⟨alphabet_relabel a S, ha.transcription_relabel hsub, ha.accepts_relabel hsub, ?_⟩
    intro T k hk
    obtain ⟨hlarger, rfl⟩ := lift_eq_ok_iff.mp hk
    rw [alphabet_relabel] at hlarger
    exact lift_eq_ok_iff.mpr ⟨fun c hc => hlarger c (hsub c hc), (relabel_relabel hsub hlarger).symm⟩
  · exact ⟨_, _, lift_eq_ok fun c hc => Alphabet.mem_union.mpr (Or.inl hc),
      lift_eq_ok fun c hc => Alphabet.mem_union.mpr (Or.inr hc), (union_relabel a b).symm,
      (concat_relabel a b).symm⟩

/-- The case of an alphabet with `d`, which no edge reads: an alphabet with `b` and `d` will do, one
without `d` will not. -/
theorem lift_preserves_of_unused :
    let a := singleEdge (.ofChars ['b', 'd']) 0
    let b := singleEdge (.ofChars ['a']) 0
    a.WellFormed ∧
      (∃ n k, a.lift (.ofChars ['a', 'b', 'd']) = .ok n ∧
        n.lift (.ofChars ['a', 'b', 'c', 'd']) = .ok k ∧ Transcription a n ∧
        (∀ w : String, n.accepts w = a.accepts w) ∧ a.lift (.ofChars ['a', 'b', 'c', 'd']) = .ok k) ∧
      (¬ ∀ c ∈ a.alphabet.symbols, c ∈ (Alphabet.ofChars ['a', 'b']).symbols) ∧
      (∃ c, a.lift (.ofChars ['a', 'b']) = .error (.missingSymbol c (.ofChars ['a', 'b']))) ∧
      ∃ l r, a.lift (a.alphabet.union b.alphabet) = .ok l ∧
        b.lift (a.alphabet.union b.alphabet) = .ok r ∧
        a.union b = l.union r ∧ a.concat b = l.concat r := by
  intro a b
  have ha : a.WellFormed := .singleEdge (by decide)
  obtain ⟨hiff, hlifted, hoperands⟩ := lift_preserves ha b
  have hfirst : a.alphabet.symbols ⊆ (Alphabet.ofChars ['a', 'b', 'd']).symbols := by decide
  have hsecond : (Alphabet.ofChars ['a', 'b', 'd']).symbols ⊆
      (Alphabet.ofChars ['a', 'b', 'c', 'd']).symbols := by decide
  have hmissing : ¬ a.alphabet.symbols ⊆ (Alphabet.ofChars ['a', 'b']).symbols := by decide
  obtain ⟨n, hn⟩ := (hiff _).1.mpr fun _ hc => hfirst hc
  obtain ⟨halphabet, hsame, haccepts, hagain⟩ := hlifted _ n hn
  obtain ⟨k, hk⟩ : ∃ k, n.lift (.ofChars ['a', 'b', 'c', 'd']) = .ok k :=
    ⟨_, lift_eq_ok (by rw [halphabet]; exact fun _ hc => hsecond hc)⟩
  have hlacks : ¬ ∀ c ∈ a.alphabet.symbols, c ∈ (Alphabet.ofChars ['a', 'b']).symbols :=
    fun hall => hmissing fun _ hc => hall _ hc
  obtain ⟨c, -, -, herror⟩ := (hiff _).2 hlacks
  exact ⟨ha, ⟨n, k, hn, hk, hsame, haccepts, hagain _ k hk⟩, hlacks, ⟨c, herror⟩, hoperands⟩

end RegularLanguages.Automaton
