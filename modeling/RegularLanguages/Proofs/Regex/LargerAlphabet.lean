import RegularLanguages.Proofs.Automaton.Construction
import RegularLanguages.Proofs.Automaton.Renumbering
import RegularLanguages.Proofs.Regex.States

/-!
# Compiling over a larger alphabet

A regex can be compiled over the alphabet of the symbols that it uses, or over a larger one. The two
automata are the same, up to the numbers of the symbols: a larger alphabet adds no reading of the text,
since only the symbols that occur in the text matter; and building goes the same way over both, with
the same errors, since the limits do not look at symbols (`Renumbers`).

If the alphabet lacks a symbol of the regex, the text has a character that no regex over the alphabet
is written with.
-/

namespace RegularLanguages

namespace Compiler

open Automaton Regex

variable {A S : Alphabet} {gA gS : Grammar} {limits : Limits} {m : Automaton} {x : Regex}

/-! ## Building -/

/-- Two answers over two alphabets: the same error, or the same automaton up to numbers. -/
inductive Renumbers (A S : Alphabet) : Except Error Automaton → Except Error Automaton → Prop
  | ok {m : Automaton} (halphabet : m.alphabet = A) : Renumbers A S (.ok m) (.ok (m.renumber A S))
  | error (e : Error) : Renumbers A S (.error e) (.error e)

theorem Renumbers.bind {r s : Except Error Automaton} {f f' : Automaton → Except Error Automaton}
    (h : Renumbers A S r s)
    (hf : ∀ m : Automaton, m.alphabet = A → Renumbers A S (f m) (f' (m.renumber A S))) :
    Renumbers A S (r.bind f) (s.bind f') := by
  cases h with
  | ok halphabet => exact hf _ halphabet
  | error e => exact .error e

/-- The second answer is an automaton if and only if the first one is, and then the renumbered one. -/
theorem Renumbers.eq_ok_iff {r s : Except Error Automaton} (h : Renumbers A S r s) :
    s = .ok m ↔ ∃ n, r = .ok n ∧ n.renumber A S = m := by
  cases h with
  | @ok n halphabet =>
    constructor
    · intro hm
      exact ⟨n, rfl, Except.ok.inj hm⟩
    · rintro ⟨n', hn, rfl⟩
      rw [Except.ok.inj hn]
  | error e =>
    refine iff_of_false (by rintro ⟨⟩) ?_
    rintro ⟨n, hn, -⟩
    cases hn

theorem renumbers_checkSize (hm : m.alphabet = A) :
    Renumbers A S (checkSize ⟨A, gA, limits⟩ m) (checkSize ⟨S, gS, limits⟩ (m.renumber A S)) := by
  unfold checkSize
  rw [numStates_renumber]
  split
  · exact .error _
  · exact .ok hm

/-- An operator with one operand. -/
theorem Renumbers.unary {r s : Except Error Automaton} {f : Automaton → Automaton}
    (h : Renumbers A S r s) (halphabet : ∀ m, (f m).alphabet = m.alphabet)
    (hf : ∀ m, (f m).renumber A S = f (m.renumber A S)) :
    Renumbers A S (r.bind fun m => checkSize ⟨A, gA, limits⟩ (f m))
      (s.bind fun m => checkSize ⟨S, gS, limits⟩ (f m)) := by
  refine h.bind fun m hm => ?_
  rw [← hf]
  exact renumbers_checkSize ((halphabet m).trans hm)

/-- An operator with two operands. They have the same alphabet, so neither is lifted. -/
theorem Renumbers.binary {r s r' s' : Except Error Automaton}
    {f : Automaton → Automaton → Automaton} (h : Renumbers A S r s) (h' : Renumbers A S r' s')
    (halphabet : ∀ {m n : Automaton}, m.alphabet = n.alphabet → (f m n).alphabet = m.alphabet)
    (hf : ∀ {m n : Automaton}, m.alphabet = n.alphabet →
      (f m n).renumber A S = f (m.renumber A S) (n.renumber A S)) :
    Renumbers A S (r.bind fun m => r'.bind fun n => checkSize ⟨A, gA, limits⟩ (f m n))
      (s.bind fun m => s'.bind fun n => checkSize ⟨S, gS, limits⟩ (f m n)) := by
  refine h.bind fun m hm => h'.bind fun n hn => ?_
  have hmn : m.alphabet = n.alphabet := hm.trans hn.symm
  rw [← hf hmn]
  exact renumbers_checkSize ((halphabet hmn).trans hm)

/-- **Building goes the same way over both alphabets**, if both have the symbols of the regex. -/
theorem renumbers_build (hA : x.Buildable A) (hS : x.Buildable S) :
    Renumbers A S (build ⟨A, gA, limits⟩ x) (build ⟨S, gS, limits⟩ x) := by
  induction x with
  | terminal c =>
    obtain ⟨i, hi, hliteral⟩ := exists_literal hA
    obtain ⟨j, hj, hliteral'⟩ := exists_literal hS
    rw [build, build, hliteral, hliteral', ← renumber_singleEdge hi hj]
    exact renumbers_checkSize rfl
  | empty =>
    have hempty : Renumbers A S (checkSize ⟨A, gA, limits⟩ (emptyWord A))
        (checkSize ⟨S, gS, limits⟩ ((emptyWord A).renumber A S)) := renumbers_checkSize rfl
    rwa [renumber_emptyWord] at hempty
  | emptyUnion x ih | option x ih => exact (ih hA hS).unary alphabet_optional renumber_optional
  | union a b iha ihb => exact (iha hA.1 hS.1).binary (ihb hA.2 hS.2) alphabet_union renumber_union
  | concatenation a b iha ihb =>
    exact (iha hA.1 hS.1).binary (ihb hA.2 hS.2) alphabet_concat renumber_concat
  | star x ih => exact (ih hA hS).unary alphabet_star renumber_star
  | plus x ih => exact (ih hA hS).unary alphabet_plus renumber_plus
  | paren x ih => exact (ih hA hS).bind fun m hm => renumbers_checkSize hm
  | repetition x count ih _ =>
    have hcount : repetitionCount ⟨S, gS, limits⟩ count = repetitionCount ⟨A, gA, limits⟩ count := rfl
    rw [build, build, hcount]
    cases repetitionCount ⟨A, gA, limits⟩ count with
    | error e => exact .error e
    | ok n =>
      refine (ih hA.1 hS.1).bind fun m hm => ?_
      rw [repeated, repeated, numStates_renumber, ← renumber_power]
      split
      · exact .error _
      · exact renumbers_checkSize (by rw [alphabet_power, hm])
  | digits text => exact .error _

/-! ## Compiling -/

variable {text : String}

/-- A character that no regex over the alphabet is written with makes a text unreadable. -/
theorem compile_of_not_writable (hS : Harmless S) (hg : Regex.grammar S = .ok gS) {c : Char}
    (hc : c ∈ (Spelling.normalise text).toList) (hnot : ¬ Writable S c) :
    compile ⟨S, gS, limits⟩ text = .error (.noTree (Spelling.normalise text) S) := by
  rcases parse_cases hS hg limits text with ⟨x, -, hx, htext⟩ | ⟨hparse, -⟩
  · exact absurd (hx.writable c (htext ▸ hc)) hnot
  · rw [compile, hparse]
    rfl

/-- Over two alphabets that agree on the characters of a text, the text is read as the same regex. -/
theorem parse_of_parse (hA : Harmless A) (hS : Harmless S) (hgA : Regex.grammar A = .ok gA)
    (hgS : Regex.grammar S = .ok gS)
    (hagree : ∀ c ∈ (Spelling.normalise text).toList, c ∈ A.symbols → c ∈ S.symbols)
    (h : parse ⟨A, gA, limits⟩ text = .ok x) : parse ⟨S, gS, limits⟩ text = .ok x := by
  obtain ⟨hx, htext⟩ := (parse_eq_ok_iff hA hgA).mp h
  exact (parse_eq_ok_iff hS hgS).mpr ⟨hx.over (htext ▸ hagree), htext⟩

/-- **Over two alphabets that agree on the characters of a text, it is compiled to the same automaton**
up to the numbers of the symbols, or over both alphabets it is not compiled. -/
theorem compile_eq_ok_iff (hA : Harmless A) (hS : Harmless S) (hgA : Regex.grammar A = .ok gA)
    (hgS : Regex.grammar S = .ok gS)
    (hagree : ∀ c ∈ (Spelling.normalise text).toList, c ∈ A.symbols ↔ c ∈ S.symbols) :
    compile ⟨S, gS, limits⟩ text = .ok m ↔
      ∃ n, compile ⟨A, gA, limits⟩ text = .ok n ∧ n.renumber A S = m := by
  have hbuild : ∀ {x : Regex}, parse ⟨A, gA, limits⟩ text = .ok x →
      Renumbers A S (build ⟨A, gA, limits⟩ x) (build ⟨S, gS, limits⟩ x) := by
    intro x hx
    obtain ⟨hlayered, htext⟩ := (parse_eq_ok_iff hA hgA).mp hx
    have hover : Layered S .union x := hlayered.over (htext ▸ fun c hc => (hagree c hc).mp)
    exact renumbers_build hlayered.buildable hover.buildable
  constructor
  · intro h
    obtain ⟨x, hparse, hm⟩ := exists_of_bind_eq_ok h
    have hx := parse_of_parse hS hA hgS hgA (fun c hc => (hagree c hc).mpr) hparse
    obtain ⟨n, hn, hnm⟩ := (hbuild hx).eq_ok_iff.mp hm
    refine ⟨n, ?_, hnm⟩
    rw [compile, hx]
    exact hn
  · rintro ⟨n, h, hnm⟩
    obtain ⟨x, hparse, hn⟩ := exists_of_bind_eq_ok h
    rw [compile, parse_of_parse hA hS hgA hgS (fun c hc => (hagree c hc).mp) hparse]
    exact (hbuild hparse).eq_ok_iff.mpr ⟨n, hn, hnm⟩

theorem alphabet_of_compile (hA : Harmless A) (hgA : Regex.grammar A = .ok gA)
    (h : compile ⟨A, gA, limits⟩ text = .ok m) : m.alphabet = A := by
  obtain ⟨x, -, -, -, hright⟩ := exists_layered_of_compile hA (ofAlphabet_eq hgA limits) h
  exact hright.alphabet_eq

/-- The automaton over the one alphabet is that over the other one, relabelled. -/
theorem compile_eq_ok_iff_relabel (hA : Harmless A) (hS : Harmless S)
    (hgA : Regex.grammar A = .ok gA) (hgS : Regex.grammar S = .ok gS)
    (hagree : ∀ c ∈ (Spelling.normalise text).toList, c ∈ A.symbols ↔ c ∈ S.symbols) :
    compile ⟨S, gS, limits⟩ text = .ok m ↔
      ∃ n, compile ⟨A, gA, limits⟩ text = .ok n ∧ n.relabel S = m := by
  by_cases hsame : S = A
  · -- relabelling to the own alphabet leaves everything as it is, also labels that name no symbol
    subst hsame
    obtain rfl := Except.ok.inj (hgA.symm.trans hgS)
    have hself : ∀ n, compile ⟨S, gA, limits⟩ text = .ok n → n.relabel S = n :=
      fun n hn => if_pos (alphabet_of_compile hS hgS hn).symm
    constructor
    · intro hm
      exact ⟨m, hm, hself m hm⟩
    · rintro ⟨n, hn, rfl⟩
      rw [hself n hn]
      exact hn
  · rw [compile_eq_ok_iff hA hS hgA hgS hagree]
    refine exists_congr fun n => and_congr_right fun hn => ?_
    have halphabet := alphabet_of_compile hA hgA hn
    rw [relabel_of_ne (halphabet ▸ hsame), halphabet]

end Compiler

/-! ## Inferred alphabets -/

open Automaton Regex Compiler

variable {S : Alphabet} {g : Grammar} {limits : Limits} {text : String}

theorem compileRegex_eq (alphabet : Option Alphabet)
    (hg : Regex.grammar (alphabet.getD (.infer text)) = .ok g) :
    compileRegex text alphabet limits =
      compile ⟨alphabet.getD (.infer text), g, limits⟩ text := by
  rw [compileRegex, ofAlphabet_eq hg, Except.bind]

/-- **A larger alphabet changes nothing but the numbers of the symbols.** If an alphabet without
metacharacters has all symbols of a regex, the regex is compiled over it if and only if it is compiled
over the alphabet of its own symbols; and the automaton over the larger alphabet is the one over the
smaller alphabet, lifted. If the alphabet lacks one of the symbols, the format is invalid. States are
counted in exact numbers under every limit; counted in 32 bits, both outcomes are the same under limits
of at most `2 ^ 31 - 2` states (`Compiler.compileRegexIn_words`). -/
theorem compileRegex_over (text : String) (S : Alphabet) (limits : Limits)
    (hS : ∀ c ∈ S.symbols, Spelling.isMetacharacter c = false) :
    ((∀ c ∈ (Alphabet.infer text).symbols, c ∈ S.symbols) →
      ((∃ m, compileRegex text (some S) limits = .ok m) ↔
        ∃ n, compileRegex text none limits = .ok n) ∧
      ∀ m n, compileRegex text (some S) limits = .ok m → compileRegex text none limits = .ok n →
        n.lift S = .ok m ∧ m.alphabet = S ∧ Transcription n m) ∧
    ((∃ c ∈ (Alphabet.infer text).symbols, c ∉ S.symbols) →
      ∃ e, compileRegex text (some S) limits = .error e ∧ e.family = .invalidFormat) := by
  have hharmless : Harmless S := fun c hc hmeta => absurd (hS c hc) (by simp [hmeta])
  obtain ⟨gA, hgA⟩ := exists_grammar (.infer text)
  obtain ⟨gS, hgS⟩ := exists_grammar S
  have hnone : compileRegex text none limits = compile ⟨.infer text, gA, limits⟩ text :=
    compileRegex_eq none hgA
  have hsome : compileRegex text (some S) limits = compile ⟨S, gS, limits⟩ text :=
    compileRegex_eq (some S) hgS
  rw [hnone, hsome]
  constructor
  · intro hsub
    have hagree : ∀ c ∈ (Spelling.normalise text).toList,
        c ∈ (Alphabet.infer text).symbols ↔ c ∈ S.symbols := fun c hc => ⟨hsub c, fun hcS =>
      Alphabet.mem_infer.mpr ⟨hc, hS c hcS, fun heq => S.emptySet_not_mem (heq ▸ hcS)⟩⟩
    have hiff : ∀ m, compile ⟨S, gS, limits⟩ text = .ok m ↔
        ∃ n, compile ⟨.infer text, gA, limits⟩ text = .ok n ∧ n.relabel S = m :=
      fun _ => compile_eq_ok_iff_relabel (harmless_infer text) hharmless hgA hgS hagree
    refine ⟨⟨?_, ?_⟩, ?_⟩
    · rintro ⟨m, hm⟩
      obtain ⟨n, hn, -⟩ := (hiff m).mp hm
      exact ⟨n, hn⟩
    · rintro ⟨n, hn⟩
      exact ⟨n.relabel S, (hiff _).mpr ⟨n, hn, rfl⟩⟩
    · intro m n hm hn
      obtain ⟨n', hn', rfl⟩ := (hiff m).mp hm
      obtain rfl := Except.ok.inj (hn.symm.trans hn')
      have hlarger : ∀ c ∈ n.alphabet.symbols, c ∈ S.symbols :=
        (alphabet_of_compile (harmless_infer text) hgA hn).symm ▸ hsub
      exact ⟨lift_eq_ok hlarger, alphabet_relabel n S,
        (wellFormed_compile hn).transcription_relabel hlarger⟩
  · rintro ⟨c, hc, hnot⟩
    obtain ⟨hmem, hmeta, -⟩ := Alphabet.mem_infer.mp hc
    have hunwritable : ¬ Writable S c := by
      rintro (h | h)
      · rw [hmeta] at h
        cases h
      · exact hnot h
    exact ⟨_, compile_of_not_writable hharmless hgS hmem hunwritable, rfl⟩

/-- The case of `c^2`, over an alphabet where `c` is not the first symbol, and over one without `c`. -/
theorem compileRegex_over_of_square :
    (∀ c ∈ (Alphabet.ofChars ['a', 'c']).symbols, Spelling.isMetacharacter c = false) ∧
      (∀ c ∈ (Alphabet.infer "c^2").symbols, c ∈ (Alphabet.ofChars ['a', 'c']).symbols) ∧
      (∃ m n, compileRegex "c^2" (some (.ofChars ['a', 'c'])) .standard = .ok m ∧
        compileRegex "c^2" none .standard = .ok n ∧ n.lift (.ofChars ['a', 'c']) = .ok m ∧
        Transcription n m) ∧
      (∀ c ∈ (Alphabet.ofChars ['a', 'b']).symbols, Spelling.isMetacharacter c = false) ∧
      (∃ c ∈ (Alphabet.infer "c^2").symbols, c ∉ (Alphabet.ofChars ['a', 'b']).symbols) ∧
      ∃ e, compileRegex "c^2" (some (.ofChars ['a', 'b'])) .standard = .error e ∧
        e.family = .invalidFormat := by
  have hc : (Alphabet.infer "c^2").symbols = ['c'] := by decide
  have hplain : ∀ c ∈ (Alphabet.ofChars ['a', 'c']).symbols, Spelling.isMetacharacter c = false := by
    show ∀ c ∈ ['a', 'c'], _
    exact List.forall_mem_cons.mpr ⟨rfl, List.forall_mem_singleton.mpr rfl⟩
  have hplain' : ∀ c ∈ (Alphabet.ofChars ['a', 'b']).symbols, Spelling.isMetacharacter c = false := by
    show ∀ c ∈ ['a', 'b'], _
    exact List.forall_mem_cons.mpr ⟨rfl, List.forall_mem_singleton.mpr rfl⟩
  have hsub : ∀ c ∈ (Alphabet.infer "c^2").symbols, c ∈ (Alphabet.ofChars ['a', 'c']).symbols := by
    rw [hc, List.forall_mem_singleton]
    show 'c' ∈ ['a', 'c']
    decide
  have hmissing : ∃ c ∈ (Alphabet.infer "c^2").symbols, c ∉ (Alphabet.ofChars ['a', 'b']).symbols :=
    ⟨'c', by rw [hc]; decide, by show 'c' ∉ ['a', 'b']; decide⟩
  obtain ⟨g, hg⟩ := exists_grammar (.infer "c^2")
  have hx : Layered (.infer "c^2") .union (.repetition (.terminal 'c') (.digits "2")) :=
    .of_repetition (.repetition (.terminal (by rw [hc]; decide)) (isDecimal_toString 2))
  obtain ⟨n, hn, -⟩ := exists_compile "c^2" (harmless_infer "c^2") (ofAlphabet_eq hg .standard) hx
    (by decide) ⟨by decide, by decide⟩
  have hnone : compileRegex "c^2" none .standard = .ok n := (compileRegex_eq none hg).trans hn
  have hlarger := (compileRegex_over "c^2" (.ofChars ['a', 'c']) .standard hplain).1 hsub
  obtain ⟨m, hm⟩ := hlarger.1.mpr ⟨n, hnone⟩
  obtain ⟨hlift, -, hsame⟩ := hlarger.2 m n hm hnone
  exact ⟨hplain, hsub, ⟨m, n, hm, hnone, hlift, hsame⟩, hplain', hmissing,
    (compileRegex_over "c^2" (.ofChars ['a', 'b']) .standard hplain').2 hmissing⟩

end RegularLanguages
