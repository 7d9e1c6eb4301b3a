import RegularLanguages.Proofs.Regex.Ambiguity

/-!
# What a compiler reads

Over a harmless alphabet a text has one parse tree at most, and its trees correspond to the layered
regexes with this text. So a compiler reads a text as the layered regex with the canonical text, if
there is one (`Compiler.parse_eq_ok_iff`), and else answers that there is no tree.

The alphabet matters only through the characters of the text that are its symbols. A layered regex
over one alphabet is one over every alphabet that has the symbols it is written with
(`Regex.Layered.over`).
-/

namespace RegularLanguages

namespace Regex

open Spelling (isMetacharacter)

variable {S T : Alphabet} {l : Layer} {x : Regex}

/-! ## Characters of a layered regex -/

/-- The character can stand in a regex over the alphabet. -/
def Writable (S : Alphabet) (c : Char) : Prop := isMetacharacter c = true ∨ c ∈ S.symbols

theorem writable_of_operator {c : Char} (h : c ∈ Spelling.operators) : Writable S c :=
  Or.inl (by rw [isMetacharacter, List.contains_iff_mem.mpr h, Bool.true_or])

/-- **A layered regex is written with metacharacters and symbols.** -/
theorem Layered.writable (h : Layered S l x) : ∀ c ∈ x.toString.toList, Writable S c := by
  have hoperator : ∀ c ∈ Spelling.operators, Writable S c := fun _ => writable_of_operator
  simp only [Spelling.operators, List.forall_mem_cons] at hoperator
  obtain ⟨hbar, hstar, hplus, hcaret, hmark, hopen, hclose, -⟩ := hoperator
  induction h with
  | empty => simp [Regex.toString]
  | union _ _ iha ihb => simpa [Regex.toString, or_imp, forall_and, hbar] using ⟨iha, ihb⟩
  | emptyUnion _ ih => simpa [Regex.toString, hbar] using ih
  | concatenation _ _ iha ihb => simpa [Regex.toString, or_imp, forall_and] using ⟨iha, ihb⟩
  | option _ ih => simpa [Regex.toString, or_imp, forall_and, hmark] using ih
  | star _ ih => simpa [Regex.toString, or_imp, forall_and, hstar] using ih
  | plus _ ih => simpa [Regex.toString, or_imp, forall_and, hplus] using ih
  | repetition _ hcount ih =>
    have hdigits := fun c hc => Or.inl (b := c ∈ S.symbols)
      (isMetacharacter_of_isDigit (hcount.2 c hc))
    simpa [Regex.toString, or_imp, forall_and, hcaret] using ⟨ih, hdigits⟩
  | ofConcatenation _ ih | ofOption _ ih | ofRepetition _ ih | ofAtom _ ih => exact ih
  | paren _ ih => simpa [Regex.toString, or_imp, forall_and, hopen, hclose] using ih
  | terminal hc =>
    rw [Regex.toString, String.toList_singleton, List.forall_mem_singleton]
    exact Or.inr hc

/-- **Only the symbols that occur in a layered regex matter.** -/
theorem Layered.over (h : Layered S l x)
    (hT : ∀ c ∈ x.toString.toList, c ∈ S.symbols → c ∈ T.symbols) : Layered T l x := by
  have hleft : ∀ {u v : String}, (∀ c ∈ (u ++ v).toList, c ∈ S.symbols → c ∈ T.symbols) →
      ∀ c ∈ u.toList, c ∈ S.symbols → c ∈ T.symbols := fun h c hc => h c (by simp [hc])
  have hright : ∀ {u v : String}, (∀ c ∈ (u ++ v).toList, c ∈ S.symbols → c ∈ T.symbols) →
      ∀ c ∈ v.toList, c ∈ S.symbols → c ∈ T.symbols := fun h c hc => h c (by simp [hc])
  induction h with
  | empty => exact .empty
  | union _ _ iha ihb => exact .union (iha (hleft (hleft hT))) (ihb (hright hT))
  | emptyUnion _ ih => exact .emptyUnion (ih (hright hT))
  | concatenation _ _ iha ihb => exact .concatenation (iha (hleft hT)) (ihb (hright hT))
  | option _ ih => exact .option (ih (hleft hT))
  | star _ ih => exact .star (ih (hleft hT))
  | plus _ ih => exact .plus (ih (hleft hT))
  | repetition _ hcount ih => exact .repetition (ih (hleft (hleft hT))) hcount
  | ofConcatenation _ ih => exact .ofConcatenation (ih hT)
  | ofOption _ ih => exact .ofOption (ih hT)
  | ofRepetition _ ih => exact .ofRepetition (ih hT)
  | ofAtom _ ih => exact .ofAtom (ih hT)
  | paren _ ih => exact .paren (ih (hright (hleft hT)))
  | terminal hc => exact .terminal (hT _ (by simp [Regex.toString]) hc)

end Regex

namespace Compiler

open Regex

variable {S : Alphabet} {g : Grammar} {limits : Limits} {text : String} {x : Regex}

/-! ## Reading -/

/-- **A compiler over a harmless alphabet finds the layered regex with the text**, or no tree. -/
theorem parse_cases (hS : Harmless S) (hg : Regex.grammar S = .ok g) (limits : Limits)
    (text : String) :
    (∃ x, parse ⟨S, g, limits⟩ text = .ok x ∧ Layered S .union x ∧
        x.toString = Spelling.normalise text) ∨
      parse ⟨S, g, limits⟩ text = .error (.noTree (Spelling.normalise text) S) ∧
        ∀ x, Layered S .union x → x.toString ≠ Spelling.normalise text := by
  have hlength := length_parse_le_one hS hg (Spelling.normalise text)
  simp only [parse]
  rcases htrees : g.parse (Spelling.normalise text) with _ | ⟨tree, _ | ⟨other, rest⟩⟩
  · -- a layered regex with the text would have a tree
    refine Or.inr ⟨rfl, fun x hx htext => ?_⟩
    have hmem : x.treeAt S .union ∈ g.parse (Spelling.normalise text) :=
      (mem_parse_of_grammar hg).mpr ⟨hx.treeOf_treeAt, by rw [hx.leaves_treeAt, htext]⟩
    rw [htrees] at hmem
    cases hmem
  · have hmem : tree ∈ g.parse (Spelling.normalise text) := htrees ▸ List.mem_singleton_self tree
    obtain ⟨htree, hleaves⟩ := (mem_parse_of_grammar hg).mp hmem
    obtain ⟨x, hx⟩ := exists_explains tree .union htree
    refine Or.inl ⟨x, ?_, hx.layered, String.toList_inj.mp (hx.leaves_eq.symm.trans hleaves)⟩
    show ofTree tree = .ok x
    rw [hx.tree_eq, hx.layered.ofTree_treeAt]
  · simp [htrees] at hlength

/-- A compiler over a harmless alphabet reads a text as a regex if and only if the regex is layered
and is printed as the text. -/
theorem parse_eq_ok_iff (hS : Harmless S) (hg : Regex.grammar S = .ok g) :
    parse ⟨S, g, limits⟩ text = .ok x ↔
      Layered S .union x ∧ x.toString = Spelling.normalise text := by
  rcases parse_cases hS hg limits text with ⟨y, hparse, hy, htext⟩ | ⟨hparse, hnone⟩
  · rw [hparse, Except.ok.injEq]
    constructor
    · rintro rfl
      exact ⟨hy, htext⟩
    · rintro ⟨hx, hxtext⟩
      exact hy.eq_of_toString_eq hx hS (htext.trans hxtext.symm)
  · rw [hparse]
    constructor
    · intro h
      cases h
    · rintro ⟨hx, htext⟩
      exact absurd htext (hnone x hx)

end Compiler

end RegularLanguages
