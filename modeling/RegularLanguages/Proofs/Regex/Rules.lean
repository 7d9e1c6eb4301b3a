import Mathlib.Data.List.Nodup
import RegularLanguages.Proofs.Grammar.Derivation
import RegularLanguages.Regex.Grammar

/-!
# Trees of the regex grammar

For each nonterminal, the shapes that its trees can have: one for each of its rules. The rest of the
theory of regexes works with these shapes and never looks at the list of rules again.

The rules of the digits and of the symbols stand behind the fixed ones, so their numbers are counted
from 16 and from 26.
-/

namespace RegularLanguages.Regex

variable {S : Alphabet} {t : ParseTree} {i : Nat} {rule : Rule}

/-- The tree derives its leaves from the nonterminal in the grammar of regexes over the alphabet. -/
def TreeOf (S : Alphabet) (name : String) (t : ParseTree) : Prop :=
  Derivation (draft S).rules (.nonterminal name) t

/-! ## Rules by number -/

theorem getElem?_digitRules :
    digitRules[i]? = some rule ↔
      ∃ c, decimalDigits[i]? = some c ∧ rule = ⟨"D", [.terminal c], .digits⟩ := by
  rw [digitRules, List.getElem?_map, Option.map_eq_some_iff]
  simp only [eq_comm]

theorem getElem?_symbolRules :
    (symbolRules S)[i]? = some rule ↔
      ∃ c, S.symbols[i]? = some c ∧ rule = ⟨"L", [.terminal c], .terminal⟩ := by
  rw [symbolRules, List.getElem?_map, Option.map_eq_some_iff]
  simp only [eq_comm]

/-- A rule is one of the fixed rules, or the rule of a digit, or the rule of a symbol. -/
theorem getElem?_rules :
    (draft S).rules[i]? = some rule ↔ fixedRules[i]? = some rule ∨
      (∃ k c, i = 16 + k ∧ decimalDigits[k]? = some c ∧ rule = ⟨"D", [.terminal c], .digits⟩) ∨
      ∃ k c, i = 26 + k ∧ S.symbols[k]? = some c ∧ rule = ⟨"L", [.terminal c], .terminal⟩ := by
  have hfixed : fixedRules.length = 16 := rfl
  have hdigits : digitRules.length = 10 := rfl
  rw [draft, List.append_assoc, List.getElem?_append, List.getElem?_append, hfixed, hdigits]
  split
  · next hlt =>
    constructor
    · exact Or.inl
    · rintro (h | ⟨k, c, rfl, -⟩ | ⟨k, c, rfl, -⟩)
      · exact h
      · omega
      · omega
  · next hge =>
    have hnone : fixedRules[i]? = none := List.getElem?_eq_none (by omega)
    rw [hnone]
    split
    · next hlt =>
      rw [getElem?_digitRules]
      constructor
      · rintro ⟨c, hc, heq⟩
        exact Or.inr (Or.inl ⟨i - 16, c, by omega, hc, heq⟩)
      · rintro (h | ⟨k, c, rfl, hc, heq⟩ | ⟨k, c, rfl, -⟩)
        · cases h
        · rw [Nat.add_sub_cancel_left]
          exact ⟨c, hc, heq⟩
        · omega
    · next hge' =>
      rw [getElem?_symbolRules]
      constructor
      · rintro ⟨c, hc, heq⟩
        exact Or.inr (Or.inr ⟨i - 16 - 10, c, by omega, hc, heq⟩)
      · rintro (h | ⟨k, c, rfl, hc, -⟩ | ⟨k, c, rfl, hc, heq⟩)
        · cases h
        · have hlt := (List.getElem?_eq_some_iff.mp hc).1
          have hten : decimalDigits.length = 10 := rfl
          omega
        · rw [show 26 + k - 16 - 10 = k by omega]
          exact ⟨c, hc, heq⟩

/-! ## Trees by nonterminal -/

theorem derivation_terminal {rules : List Rule} {c : Char} :
    Derivation rules (.terminal c) t ↔ t = .leaf c := by
  constructor
  · intro h
    cases h
    rfl
  · rintro rfl
    exact .leaf c

theorem forall₂_terminal {rules : List Rule} {c : Char} {children : List ParseTree} :
    List.Forall₂ (Derivation rules) [.terminal c] children ↔ children = [.leaf c] := by
  simp [List.forall₂_cons_left_iff, derivation_terminal]

theorem derivation_nonterminal {rules : List Rule} {name : String} :
    Derivation rules (.nonterminal name) t ↔ ∃ i rule children, rules[i]? = some rule ∧
      rule.lhs = name ∧ t = .node i rule.kind children ∧
        List.Forall₂ (Derivation rules) rule.rhs children := by
  constructor
  · intro h
    cases h with
    | node hrule hchildren => exact ⟨_, _, _, hrule, rfl, rfl, hchildren⟩
  · rintro ⟨i, rule, children, hrule, rfl, rfl, hchildren⟩
    exact .node hrule hchildren

/-- The fixed rules for a nonterminal, with their numbers. -/
def rulesFor (name : String) : List (Rule × Nat) :=
  fixedRules.zipIdx.filter fun numbered => numbered.1.lhs == name

theorem treeOf_iff {name : String} (hdigit : name ≠ "D") (hsymbol : name ≠ "L") :
    TreeOf S name t ↔ ∃ numbered ∈ rulesFor name, ∃ children,
      t = .node numbered.2 numbered.1.kind children ∧
        List.Forall₂ (Derivation (draft S).rules) numbered.1.rhs children := by
  rw [TreeOf, derivation_nonterminal]
  constructor
  · rintro ⟨i, rule, children, hrule, rfl, rfl, hchildren⟩
    rcases getElem?_rules.mp hrule with hfixed | ⟨k, c, -, -, rfl⟩ | ⟨k, c, -, -, rfl⟩
    · refine ⟨(rule, i), List.mem_filter.mpr ⟨?_, beq_self_eq_true _⟩, children, rfl, hchildren⟩
      exact List.mk_mem_zipIdx_iff_getElem?.mpr hfixed
    · exact absurd rfl hdigit
    · exact absurd rfl hsymbol
  · rintro ⟨⟨rule, i⟩, hmem, children, rfl, hchildren⟩
    obtain ⟨hmem, hlhs⟩ := List.mem_filter.mp hmem
    have hfixed := List.mk_mem_zipIdx_iff_getElem?.mp hmem
    exact ⟨i, rule, children, getElem?_rules.mpr (Or.inl hfixed), beq_iff_eq.mp hlhs, rfl, hchildren⟩

theorem treeOf_union : TreeOf S "U" t ↔
    (∃ a b, t = .node 0 .union [a, .leaf '|', b] ∧ TreeOf S "C" a ∧ TreeOf S "U" b) ∨
      (∃ a, t = .node 1 .emptyUnion [.leaf '|', a] ∧ TreeOf S "U" a) ∨
      t = .node 2 .empty [] ∨ ∃ a, t = .node 3 .forward [a] ∧ TreeOf S "C" a := by
  rw [treeOf_iff (by decide) (by decide), show rulesFor "U" =
    [(⟨"U", [.nonterminal "C", .terminal '|', .nonterminal "U"], .union⟩, 0),
      (⟨"U", [.terminal '|', .nonterminal "U"], .emptyUnion⟩, 1), (⟨"U", [], .empty⟩, 2),
      (⟨"U", [.nonterminal "C"], .forward⟩, 3)] from rfl]
  simp [List.forall₂_cons_left_iff, derivation_terminal, TreeOf]

theorem treeOf_concatenation : TreeOf S "C" t ↔
    (∃ a b, t = .node 4 .concatenation [a, b] ∧ TreeOf S "O" a ∧ TreeOf S "C" b) ∨
      ∃ a, t = .node 5 .forward [a] ∧ TreeOf S "O" a := by
  rw [treeOf_iff (by decide) (by decide), show rulesFor "C" =
    [(⟨"C", [.nonterminal "O", .nonterminal "C"], .concatenation⟩, 4),
      (⟨"C", [.nonterminal "O"], .forward⟩, 5)] from rfl]
  simp [List.forall₂_cons_left_iff, TreeOf]

theorem treeOf_option : TreeOf S "O" t ↔
    (∃ a, t = .node 6 .option [a, .leaf '?'] ∧ TreeOf S "R" a) ∨
      ∃ a, t = .node 7 .forward [a] ∧ TreeOf S "R" a := by
  rw [treeOf_iff (by decide) (by decide), show rulesFor "O" =
    [(⟨"O", [.nonterminal "R", .terminal '?'], .option⟩, 6),
      (⟨"O", [.nonterminal "R"], .forward⟩, 7)] from rfl]
  simp [List.forall₂_cons_left_iff, derivation_terminal, TreeOf]

theorem treeOf_repetition : TreeOf S "R" t ↔
    (∃ a, t = .node 8 .star [a, .leaf '*'] ∧ TreeOf S "A" a) ∨
      (∃ a, t = .node 9 .plus [a, .leaf '+'] ∧ TreeOf S "A" a) ∨
      (∃ a b, t = .node 10 .repetition [a, .leaf '^', b] ∧ TreeOf S "A" a ∧ TreeOf S "I" b) ∨
      ∃ a, t = .node 11 .forward [a] ∧ TreeOf S "A" a := by
  rw [treeOf_iff (by decide) (by decide), show rulesFor "R" =
    [(⟨"R", [.nonterminal "A", .terminal '*'], .star⟩, 8),
      (⟨"R", [.nonterminal "A", .terminal '+'], .plus⟩, 9),
      (⟨"R", [.nonterminal "A", .terminal '^', .nonterminal "I"], .repetition⟩, 10),
      (⟨"R", [.nonterminal "A"], .forward⟩, 11)] from rfl]
  simp [List.forall₂_cons_left_iff, derivation_terminal, TreeOf]

theorem treeOf_atom : TreeOf S "A" t ↔
    (∃ a, t = .node 12 .paren [.leaf '(', a, .leaf ')'] ∧ TreeOf S "U" a) ∨
      ∃ a, t = .node 13 .forward [a] ∧ TreeOf S "L" a := by
  rw [treeOf_iff (by decide) (by decide), show rulesFor "A" =
    [(⟨"A", [.terminal '(', .nonterminal "U", .terminal ')'], .paren⟩, 12),
      (⟨"A", [.nonterminal "L"], .forward⟩, 13)] from rfl]
  simp [List.forall₂_cons_left_iff, derivation_terminal, TreeOf]

theorem treeOf_count : TreeOf S "I" t ↔
    (∃ a, t = .node 14 .digits [a] ∧ TreeOf S "D" a) ∨
      ∃ a b, t = .node 15 .digits [a, b] ∧ TreeOf S "I" a ∧ TreeOf S "D" b := by
  rw [treeOf_iff (by decide) (by decide), show rulesFor "I" =
    [(⟨"I", [.nonterminal "D"], .digits⟩, 14),
      (⟨"I", [.nonterminal "I", .nonterminal "D"], .digits⟩, 15)] from rfl]
  simp [List.forall₂_cons_left_iff, TreeOf]

/-- No fixed rule is for a digit or for a symbol. -/
theorem lhs_ne_of_fixed (h : fixedRules[i]? = some rule) : rule.lhs ≠ "D" ∧ rule.lhs ≠ "L" := by
  have hall : ∀ rule ∈ fixedRules, rule.lhs ≠ "D" ∧ rule.lhs ≠ "L" := by decide
  exact hall rule (List.mem_of_getElem? h)

theorem treeOf_digit : TreeOf S "D" t ↔
    ∃ k c, t = .node (16 + k) .digits [.leaf c] ∧ decimalDigits[k]? = some c := by
  rw [TreeOf, derivation_nonterminal]
  constructor
  · rintro ⟨i, rule, children, hrule, hlhs, rfl, hchildren⟩
    rcases getElem?_rules.mp hrule with hfixed | ⟨k, c, rfl, hc, rfl⟩ | ⟨k, c, -, -, rfl⟩
    · exact absurd hlhs (lhs_ne_of_fixed hfixed).1
    · obtain rfl := forall₂_terminal.mp hchildren
      exact ⟨k, c, rfl, hc⟩
    · exact absurd hlhs (show ¬ "L" = "D" by decide)
  · rintro ⟨k, c, rfl, hc⟩
    exact ⟨_, _, _, getElem?_rules.mpr (Or.inr (Or.inl ⟨k, c, rfl, hc, rfl⟩)), rfl, rfl,
      forall₂_terminal.mpr rfl⟩

theorem treeOf_symbol : TreeOf S "L" t ↔
    ∃ k c, t = .node (26 + k) .terminal [.leaf c] ∧ S.symbols[k]? = some c := by
  rw [TreeOf, derivation_nonterminal]
  constructor
  · rintro ⟨i, rule, children, hrule, hlhs, rfl, hchildren⟩
    rcases getElem?_rules.mp hrule with hfixed | ⟨k, c, -, -, rfl⟩ | ⟨k, c, rfl, hc, rfl⟩
    · exact absurd hlhs (lhs_ne_of_fixed hfixed).2
    · exact absurd hlhs (show ¬ "D" = "L" by decide)
    · obtain rfl := forall₂_terminal.mp hchildren
      exact ⟨k, c, rfl, hc⟩
  · rintro ⟨k, c, rfl, hc⟩
    exact ⟨_, _, _, getElem?_rules.mpr (Or.inr (Or.inr ⟨k, c, rfl, hc, rfl⟩)), rfl, rfl,
      forall₂_terminal.mpr rfl⟩

end RegularLanguages.Regex
