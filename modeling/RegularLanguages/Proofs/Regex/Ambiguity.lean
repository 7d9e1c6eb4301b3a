import RegularLanguages.Proofs.Regex.Reading
import RegularLanguages.Proofs.Regex.Spelling
import RegularLanguages.Proofs.Regex.Unambiguous

/-!
# When a regex has several parse trees

Over a harmless alphabet a text has one parse tree at most, since its trees correspond to the layered
regexes with this text, and there is only one. So a compiler over such an alphabet never finds several
trees; an alphabet that is inferred from a regex is of this kind.

Every metacharacter other than `^` makes an alphabet ambiguous as soon as it is a symbol. For each of
them there is a short text with two readings, one that takes a character for an operator and one that
takes it for a symbol. For `^` there is none, because the operator has a digit behind it.
-/

namespace RegularLanguages

/-- The computation succeeds, or what a person wrote is invalid. -/
def OkOrInvalid {α : Type} (r : Except Error α) : Prop := ∀ e, r = .error e → e.family = .invalidFormat

section

variable {α β : Type} {e : Error}

theorem okOrInvalid_ok (a : α) : OkOrInvalid (.ok a : Except Error α) := by
  intro e h
  cases h

theorem okOrInvalid_error (h : e.family = .invalidFormat) :
    OkOrInvalid (.error e : Except Error α) := by
  intro e' he
  obtain rfl := Except.error.inj he
  exact h

theorem OkOrInvalid.bind {r : Except Error α} {f : α → Except Error β} (h : OkOrInvalid r)
    (hf : ∀ a, OkOrInvalid (f a)) : OkOrInvalid (r.bind f) := by
  cases r with
  | error e => exact okOrInvalid_error (h e rfl)
  | ok a => exact hf a

theorem OkOrInvalid.map {r : Except Error α} (h : OkOrInvalid r) (f : α → β) :
    OkOrInvalid (r.map f) := by
  cases r with
  | error e => exact okOrInvalid_error (h e rfl)
  | ok a => exact okOrInvalid_ok (f a)

end

namespace Regex

open Spelling (isMetacharacter normalise)

variable {S : Alphabet} {g : Grammar} {x y : Regex}

/-! ## One tree -/

theorem length_parse_le_one (hS : Harmless S) (hg : grammar S = .ok g) (text : String) :
    (g.parse text).length ≤ 1 := by
  have hsame : ∀ t ∈ g.parse text, ∀ t' ∈ g.parse text, t = t' := by
    intro t ht t' ht'
    obtain ⟨htree, hleaves⟩ := (mem_parse_of_grammar hg).mp ht
    obtain ⟨htree', hleaves'⟩ := (mem_parse_of_grammar hg).mp ht'
    obtain ⟨x, hx⟩ := exists_explains t .union htree
    obtain ⟨y, hy⟩ := exists_explains t' .union htree'
    have htext : x.toString.toList = y.toString.toList := by
      rw [← hx.leaves_eq, ← hy.leaves_eq, hleaves, hleaves']
    have heq : x = y := hx.layered.eq_of_toString_eq hy.layered hS (String.toList_inj.mp htext)
    rw [hx.tree_eq, hy.tree_eq, heq]
  have hnodup := Grammar.nodup_parse_of_checked (Draft.checked_of_build hg) text
  generalize g.parse text = trees at hsame hnodup
  match trees with
  | [] | [_] => simp
  | t :: t' :: rest =>
    obtain rfl := hsame t (by simp) t' (by simp)
    exact absurd List.mem_cons_self (List.nodup_cons.mp hnodup).1

/-! ## Two trees -/

theorem two_le_length_parse (hg : grammar S = .ok g) (hx : Layered S .union x)
    (hy : Layered S .union y) (hne : x ≠ y) (htext : x.toString = y.toString) :
    2 ≤ (g.parse x.toString).length := by
  have hxtree : x.treeAt S .union ∈ g.parse x.toString :=
    (mem_parse_of_grammar hg).mpr ⟨hx.treeOf_treeAt, hx.leaves_treeAt⟩
  have hytree : y.treeAt S .union ∈ g.parse x.toString :=
    (mem_parse_of_grammar hg).mpr ⟨hy.treeOf_treeAt, by rw [hy.leaves_treeAt, htext]⟩
  have htrees : x.treeAt S .union ≠ y.treeAt S .union := by
    intro heq
    have hok : (.ok x : Except Error Regex) = .ok y := by
      rw [← hx.ofTree_treeAt, heq, hy.ofTree_treeAt]
    exact hne (Except.ok.inj hok)
  generalize g.parse x.toString = trees at hxtree hytree
  match trees with
  | [] => cases hxtree
  | [t] => exact absurd ((List.mem_singleton.mp hxtree).trans (List.mem_singleton.mp hytree).symm) htrees
  | _ :: _ :: _ => simp

/-! ## Texts with two readings -/

/-- The text consists of metacharacters and belongs to two layered regexes. -/
structure TwoReadings (S : Alphabet) (text : String) : Prop where
  metacharacters : text.toList.all isMetacharacter = true
  readings : ∃ x y, x ≠ y ∧ Layered S .union x ∧ Layered S .union y ∧ x.toString = text ∧
    y.toString = text

theorem Layered.of_repetition (h : Layered S .repetition x) : Layered S .union x :=
  .ofConcatenation (.ofOption (.ofRepetition h))

/-- Two repetitions side by side. -/
theorem Layered.append (hx : Layered S .repetition x) (hy : Layered S .repetition y) :
    Layered S .union (.concatenation x y) :=
  .ofConcatenation (.concatenation (.ofRepetition hx) (.ofOption (.ofRepetition hy)))

/-- A digit in front of `^` can be a symbol, and one behind it a part of the count or a symbol. -/
theorem twoReadings_digit {c : Char} (hc : c ∈ S.symbols) (hdigit : c.isDigit = true) :
    TwoReadings S (String.ofList [c, '^', c, c]) := by
  have hsymbol : Layered S .atom (.terminal c) := .terminal hc
  have hone : IsDecimal (String.ofList [c]) := by simp [IsDecimal, hdigit]
  have htwo : IsDecimal (String.ofList [c, c]) := by simp [IsDecimal, hdigit]
  refine ⟨?_, .repetition (.terminal c) (.digits (String.ofList [c, c])),
    .concatenation (.repetition (.terminal c) (.digits (String.ofList [c]))) (.terminal c),
    by simp, .of_repetition (.repetition hsymbol htwo),
    .append (.repetition hsymbol hone) (.ofAtom hsymbol), ?_, ?_⟩
  · simp [isMetacharacter_of_isDigit hdigit, show isMetacharacter '^' = true by decide]
  · rw [← String.toList_inj]
    simp [Regex.toString]
  · rw [← String.toList_inj]
    simp [Regex.toString]

/-- **Every metacharacter but `^` makes some text ambiguous** when it is a symbol. -/
theorem exists_twoReadings {c : Char} (hc : c ∈ S.symbols) (hmeta : isMetacharacter c = true)
    (hne : c ≠ '^') : ∃ text, TwoReadings S text := by
  have hsymbol : Layered S .repetition (.terminal c) := .ofAtom (.terminal hc)
  simp only [isMetacharacter, Spelling.operators, Bool.or_eq_true, List.contains_iff_mem,
    List.mem_cons, List.not_mem_nil, or_false] at hmeta
  rcases hmeta with (rfl | rfl | rfl | rfl | rfl | rfl | rfl) | hdigit
  · exact ⟨"|", by decide, .emptyUnion .empty, .terminal '|', by decide, .emptyUnion .empty,
      .of_repetition hsymbol, by decide, by decide⟩
  · exact ⟨"**", by decide, .star (.terminal '*'), .concatenation (.terminal '*') (.terminal '*'),
      by decide, .of_repetition (.star (.terminal hc)), .append hsymbol hsymbol, by decide,
      by decide⟩
  · exact ⟨"++", by decide, .plus (.terminal '+'), .concatenation (.terminal '+') (.terminal '+'),
      by decide, .of_repetition (.plus (.terminal hc)), .append hsymbol hsymbol, by decide,
      by decide⟩
  · exact absurd rfl hne
  · exact ⟨"??", by decide, .option (.terminal '?'), .concatenation (.terminal '?') (.terminal '?'),
      by decide, .ofConcatenation (.ofOption (.option hsymbol)), .append hsymbol hsymbol, by decide,
      by decide⟩
  · exact ⟨"(()", by decide, .paren (.terminal '('), .concatenation (.terminal '(') (.paren .empty),
      by decide, .of_repetition (.ofAtom (.paren (.of_repetition hsymbol))),
      .append hsymbol (.ofAtom (.paren .empty)), by decide, by decide⟩
  · exact ⟨"())", by decide, .paren (.terminal ')'), .concatenation (.paren .empty) (.terminal ')'),
      by decide, .of_repetition (.ofAtom (.paren (.of_repetition hsymbol))),
      .append (.ofAtom (.paren .empty)) hsymbol, by decide, by decide⟩
  · exact ⟨_, twoReadings_digit hc hdigit⟩

/-- Texts of metacharacters are in canonical form. -/
theorem normalise_of_metacharacters {text : String}
    (h : text.toList.all isMetacharacter = true) : normalise text = text :=
  Spelling.normalise_eq_self fun c hc =>
    Spelling.canonicalChar?_of_isMetacharacter (List.all_eq_true.mp h c hc)

end Regex

namespace Compiler

open Regex Automaton

variable {S : Alphabet} {g : Grammar} {c : Compiler} {limits : Limits} {text : String}

/-! ## What the compiler answers -/

theorem okOrInvalid_parse (hS : Harmless S) (hg : Regex.grammar S = .ok g) (text : String) :
    OkOrInvalid (parse ⟨S, g, limits⟩ text) := by
  have hlength := length_parse_le_one hS hg (Spelling.normalise text)
  simp only [parse]
  split
  · exact okOrInvalid_error rfl
  · next tree htree =>
    have hmem : tree ∈ g.parse (Spelling.normalise text) := htree ▸ List.mem_singleton_self tree
    obtain ⟨x, hx⟩ := exists_explains tree .union ((mem_parse_of_grammar hg).mp hmem).1
    rw [hx.tree_eq, hx.layered.ofTree_treeAt]
    exact okOrInvalid_ok x
  · next hnil hone =>
    cases htrees : g.parse (Spelling.normalise text) with
    | nil => exact absurd htrees hnil
    | cons tree rest =>
      cases rest with
      | nil => exact absurd htrees (hone tree)
      | cons _ _ => simp [htrees] at hlength

theorem exists_ambiguous_of_twoReadings (hg : Regex.grammar S = .ok g) (h : TwoReadings S text) :
    2 ≤ (g.parse text).length ∧
      ∃ e, parse ⟨S, g, limits⟩ text = .error e ∧ e.family = .ambiguousGrammar := by
  obtain ⟨x, y, hne, hx, hy, rfl, htext⟩ := h.readings
  have hlength := two_le_length_parse hg hx hy hne htext.symm
  refine ⟨hlength, ?_⟩
  simp only [parse, normalise_of_metacharacters h.metacharacters]
  generalize g.parse x.toString = trees at hlength
  rcases trees with _ | ⟨first, _ | ⟨second, rest⟩⟩
  · simp at hlength
  · simp at hlength
  · exact ⟨.manyTrees _ _ _, rfl, rfl⟩

theorem okOrInvalid_checkSize (c : Compiler) (m : Automaton) : OkOrInvalid (c.checkSize m) := by
  unfold checkSize
  split
  · exact okOrInvalid_error rfl
  · exact okOrInvalid_ok m

theorem okOrInvalid_repetitionCount (c : Compiler) (count : Regex) :
    OkOrInvalid (c.repetitionCount count) := by
  cases count with
  | digits text =>
    simp only [repetitionCount]
    split
    · split
      · exact okOrInvalid_ok _
      · exact okOrInvalid_error rfl
    · exact okOrInvalid_error rfl
  | _ => exact okOrInvalid_error rfl

theorem okOrInvalid_repeated (c : Compiler) (n : Nat) (m : Automaton) :
    OkOrInvalid (c.repeated n m) := by
  unfold repeated
  split
  · exact okOrInvalid_error rfl
  · exact c.okOrInvalid_checkSize _

theorem okOrInvalid_literal (S : Alphabet) (a : Char) : OkOrInvalid (literal S a) := by
  unfold literal ofSymbol
  split
  · split
    · exact okOrInvalid_ok _
    · exact okOrInvalid_error rfl
  · exact okOrInvalid_error rfl

/-- Building an automaton can only fail because of what a person wrote. -/
theorem okOrInvalid_build (c : Compiler) (x : Regex) : OkOrInvalid (c.build x) := by
  induction x with
  | terminal symbol => exact (okOrInvalid_literal _ _).bind c.okOrInvalid_checkSize
  | empty => exact c.okOrInvalid_checkSize _
  | emptyUnion x ih | option x ih | star x ih | plus x ih | paren x ih =>
    exact ih.bind fun m => c.okOrInvalid_checkSize _
  | union a b iha ihb | concatenation a b iha ihb =>
    exact iha.bind fun l => ihb.bind fun r => c.okOrInvalid_checkSize _
  | repetition x count ih _ =>
    exact (c.okOrInvalid_repetitionCount count).bind fun n => ih.bind fun m =>
      c.okOrInvalid_repeated n m
  | digits text => exact okOrInvalid_error rfl

theorem ofAlphabet_eq (hg : Regex.grammar S = .ok g) (limits : Limits) :
    ofAlphabet S limits = .ok ⟨S, g, limits⟩ := by
  rw [ofAlphabet, hg]
  rfl

/-- The symbols that are inferred from a regex are no metacharacters. -/
theorem harmless_infer (text : String) : Harmless (Alphabet.infer text) := by
  intro a ha hmeta
  have hnot := (Alphabet.mem_symbols_ofChars.mp ha).1
  simp [hmeta] at hnot

theorem okOrInvalid_compile (hS : Harmless S) (hg : Regex.grammar S = .ok g) (text : String) :
    OkOrInvalid (compile ⟨S, g, limits⟩ text) :=
  (okOrInvalid_parse hS hg text).bind (okOrInvalid_build _)

theorem okOrInvalid_compileRegex_none (text : String) (limits : Limits) :
    OkOrInvalid (compileRegex text none limits) := by
  obtain ⟨g, hg⟩ := exists_grammar (Alphabet.infer text)
  have hcompile : compileRegex text none limits =
      compile ⟨Alphabet.infer text, g, limits⟩ text := by
    simp only [compileRegex, Option.getD_none, ofAlphabet_eq hg, Except.bind]
  rw [hcompile]
  exact okOrInvalid_compile (harmless_infer text) hg text

end Compiler

/-- **The language of regexes is unambiguous exactly over the harmless alphabets.** If no symbol is a
metacharacter, except perhaps `^`, every text has one parse tree at most, and reading a text never
finds the grammar ambiguous. If there is another metacharacter, some text is found ambiguous. A regex
whose alphabet is inferred never is. -/
theorem Regex.unambiguous_exactly_if_harmless (S : Alphabet) (limits : Limits) :
    ∃ g, grammar S = .ok g ∧ Compiler.ofAlphabet S limits = .ok ⟨S, g, limits⟩ ∧
      (Harmless S → ∀ text, (g.parse text).length ≤ 1 ∧
        OkOrInvalid (Compiler.parse ⟨S, g, limits⟩ text)) ∧
      ((∃ c ∈ S.symbols, Spelling.isMetacharacter c = true ∧ c ≠ '^') →
        ∃ text, 2 ≤ (g.parse text).length ∧
          ∃ e, Compiler.parse ⟨S, g, limits⟩ text = .error e ∧ e.family = .ambiguousGrammar) ∧
      ∀ text, OkOrInvalid (compileRegex text none limits) := by
  obtain ⟨g, hg⟩ := exists_grammar S
  refine ⟨g, hg, Compiler.ofAlphabet_eq hg limits, ?_, ?_, ?_⟩
  · intro hS text
    exact ⟨length_parse_le_one hS hg text, Compiler.okOrInvalid_parse hS hg text⟩
  · rintro ⟨c, hc, hmeta, hne⟩
    obtain ⟨text, htext⟩ := exists_twoReadings hc hmeta hne
    exact ⟨text, Compiler.exists_ambiguous_of_twoReadings hg htext⟩
  · intro text
    exact Compiler.okOrInvalid_compileRegex_none text limits

/-- The cases of the symbols `^` and `*`. -/
theorem Regex.unambiguous_exactly_if_harmless_of_caret_and_star :
    (∃ g, grammar (.ofChars ['a', '^']) = .ok g ∧ ∀ text, (g.parse text).length ≤ 1) ∧
      ∃ g, grammar (.ofChars ['a', '*']) = .ok g ∧ ∃ text, 2 ≤ (g.parse text).length := by
  have hcaret : Harmless (.ofChars ['a', '^']) := by
    intro c hc hmeta
    have hmem := (Alphabet.mem_symbols_ofChars.mp hc).1
    rw [List.mem_cons, List.mem_singleton] at hmem
    rcases hmem with rfl | rfl
    · exact absurd hmeta (by decide)
    · rfl
  have hstar : ∃ c ∈ (Alphabet.ofChars ['a', '*']).symbols,
      Spelling.isMetacharacter c = true ∧ c ≠ '^' := ⟨'*', by decide⟩
  obtain ⟨g, hg, -, hone, -⟩ := unambiguous_exactly_if_harmless (.ofChars ['a', '^']) .standard
  obtain ⟨g', hg', -, -, htwo, -⟩ := unambiguous_exactly_if_harmless (.ofChars ['a', '*']) .standard
  obtain ⟨text, hlength, -⟩ := htwo hstar
  exact ⟨⟨g, hg, fun text => (hone hcaret text).1⟩, g', hg', text, hlength⟩

end RegularLanguages
