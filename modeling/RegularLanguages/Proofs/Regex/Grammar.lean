import RegularLanguages.Proofs.Grammar.Parse
import RegularLanguages.Proofs.Regex.Rules

/-!
# The grammar of regexes passes its checks

Only `U` derives the empty word, so one nonterminal can shrink to another one only along a chain of
rules with a single symbol on the right: `U`, `C`, `O`, `R`, `A`, `L` and `I`, `D`. Each step of such
a chain lowers the height of the nonterminal, so no nonterminal derives itself, whatever the alphabet
is.
-/

namespace RegularLanguages.Regex

variable {S : Alphabet} {t : ParseTree}

/-! ## Trees without leaves -/

theorem leaves_ne_nil_of_symbol (h : TreeOf S "L" t) : t.leaves ≠ [] := by
  obtain ⟨k, c, rfl, -⟩ := treeOf_symbol.mp h
  simp

theorem leaves_ne_nil_of_atom (h : TreeOf S "A" t) : t.leaves ≠ [] := by
  rcases treeOf_atom.mp h with ⟨a, rfl, -⟩ | ⟨a, rfl, ha⟩
  · simp
  · simp [leaves_ne_nil_of_symbol ha]

theorem leaves_ne_nil_of_repetition (h : TreeOf S "R" t) : t.leaves ≠ [] := by
  rcases treeOf_repetition.mp h with ⟨a, rfl, -⟩ | ⟨a, rfl, -⟩ | ⟨a, b, rfl, -⟩ | ⟨a, rfl, ha⟩
  · simp
  · simp
  · simp
  · simp [leaves_ne_nil_of_atom ha]

theorem leaves_ne_nil_of_option (h : TreeOf S "O" t) : t.leaves ≠ [] := by
  rcases treeOf_option.mp h with ⟨a, rfl, -⟩ | ⟨a, rfl, ha⟩
  · simp
  · simp [leaves_ne_nil_of_repetition ha]

theorem leaves_ne_nil_of_concatenation (h : TreeOf S "C" t) : t.leaves ≠ [] := by
  rcases treeOf_concatenation.mp h with ⟨a, b, rfl, ha, -⟩ | ⟨a, rfl, ha⟩
  · simp [leaves_ne_nil_of_option ha]
  · simp [leaves_ne_nil_of_option ha]

theorem leaves_ne_nil_of_digit (h : TreeOf S "D" t) : t.leaves ≠ [] := by
  obtain ⟨k, c, rfl, -⟩ := treeOf_digit.mp h
  simp

theorem leaves_ne_nil_of_count (h : TreeOf S "I" t) : t.leaves ≠ [] := by
  rcases treeOf_count.mp h with ⟨a, rfl, ha⟩ | ⟨a, b, rfl, -, hb⟩
  · simp [leaves_ne_nil_of_digit ha]
  · simp [leaves_ne_nil_of_digit hb]

/-! ## Rules that shrink -/

/-- The names of the nonterminals. -/
def nonterminalNames : List String := ["U", "C", "O", "R", "A", "I", "D", "L"]

/-- How far a nonterminal is above the letters. -/
def height : String → Nat
  | "U" => 5
  | "C" => 4
  | "O" => 3
  | "R" => 2
  | "A" | "I" => 1
  | _ => 0

/-- The nonterminals of the rule are among the known ones. -/
def usesKnown (rule : Rule) : Bool :=
  nonterminalNames.contains rule.lhs &&
    rule.rhs.all fun
      | .terminal _ => true
      | .nonterminal name => nonterminalNames.contains name

/-- Each nonterminal on the right is lower than the left side, unless it has a neighbour other
than `U`. -/
def descends (rule : Rule) : Bool :=
  (List.range rule.rhs.length).all fun k =>
    match rule.rhs[k]? with
    | some (.nonterminal name) =>
      (rule.rhs.eraseIdx k).any (· != .nonterminal "U") || height name < height rule.lhs
    | _ => true

theorem usesKnown_of_mem {rule : Rule} (h : rule ∈ (draft S).rules) : usesKnown rule = true := by
  obtain ⟨i, hi⟩ := List.mem_iff_getElem?.mp h
  rcases getElem?_rules.mp hi with hfixed | ⟨k, c, -, -, rfl⟩ | ⟨k, c, -, -, rfl⟩
  · have hall : fixedRules.all usesKnown = true := by decide
    exact List.all_eq_true.mp hall rule (List.mem_of_getElem? hfixed)
  · rfl
  · rfl

theorem descends_of_mem {rule : Rule} (h : rule ∈ (draft S).rules) : descends rule = true := by
  obtain ⟨i, hi⟩ := List.mem_iff_getElem?.mp h
  rcases getElem?_rules.mp hi with hfixed | ⟨k, c, -, -, rfl⟩ | ⟨k, c, -, -, rfl⟩
  · have hall : fixedRules.all descends = true := by decide
    exact List.all_eq_true.mp hall rule (List.mem_of_getElem? hfixed)
  · rfl
  · rfl

/-- **Only `U` derives the empty word.** -/
theorem eq_union_of_leaves_nil {symbol : Symbol} (h : Derivation (draft S).rules symbol t)
    (hleaves : t.leaves = []) : symbol = .nonterminal "U" := by
  cases symbol with
  | terminal c =>
    rw [derivation_terminal.mp h] at hleaves
    cases hleaves
  | nonterminal name =>
    obtain ⟨i, rule, children, hrule, rfl, -⟩ := derivation_nonterminal.mp h
    have hknown := usesKnown_of_mem (List.mem_of_getElem? hrule)
    have hname : rule.lhs ∈ nonterminalNames :=
      List.contains_iff_mem.mp (Bool.and_eq_true_iff.mp hknown).1
    generalize rule.lhs = name at h hname
    simp only [nonterminalNames, List.mem_cons, List.not_mem_nil, or_false] at hname
    rcases hname with rfl | rfl | rfl | rfl | rfl | rfl | rfl | rfl
    · rfl
    · exact absurd hleaves (leaves_ne_nil_of_concatenation h)
    · exact absurd hleaves (leaves_ne_nil_of_option h)
    · exact absurd hleaves (leaves_ne_nil_of_repetition h)
    · exact absurd hleaves (leaves_ne_nil_of_atom h)
    · exact absurd hleaves (leaves_ne_nil_of_count h)
    · exact absurd hleaves (leaves_ne_nil_of_digit h)
    · exact absurd hleaves (leaves_ne_nil_of_symbol h)

/-- A step that derives one nonterminal alone goes down. -/
theorem height_lt_of_unitStep {a b : String} (h : Grammar.UnitStep (draft S).rules a b) :
    height b < height a := by
  obtain ⟨rule, hrule, rfl, before, after, hrhs, hempty⟩ := h
  have hdescends := List.all_eq_true.mp (descends_of_mem hrule) before.length
    (List.mem_range.mpr (by rw [hrhs, List.length_append, List.length_cons]; omega))
  -- the other symbols derive the empty word, so they are all `U`
  have hothers : (rule.rhs.eraseIdx before.length).any (· != .nonterminal "U") = false := by
    rw [hrhs, List.eraseIdx_append_of_length_le (Nat.le_refl _), Nat.sub_self, List.eraseIdx_cons_zero,
      List.any_eq_false]
    intro symbol hsymbol
    obtain ⟨t, ht, hleaves⟩ := hempty symbol hsymbol
    simp [eq_union_of_leaves_nil ht hleaves]
  have hhere : rule.rhs[before.length]? = some (.nonterminal b) := by simp [hrhs]
  rw [hhere] at hdescends
  simp only [hothers, Bool.false_or, decide_eq_true_eq] at hdescends
  exact hdescends

theorem height_lt_of_transGen {a b : String}
    (h : Relation.TransGen (Grammar.UnitStep (draft S).rules) a b) : height b < height a := by
  induction h with
  | single hstep => exact height_lt_of_unitStep hstep
  | tail _ hstep ih => exact Nat.lt_trans (height_lt_of_unitStep hstep) ih

/-! ## Building -/

theorem defines_of_mem {name : String} (h : name ∈ nonterminalNames) :
    (draft S).defines name = true := by
  -- `L` is declared; over the empty alphabet it has no rule
  have hfixed : ∀ name ∈ nonterminalNames, name = "L" ∨
      name ∈ (fixedRules ++ digitRules).map Rule.lhs := by decide
  rw [Draft.defines, Bool.or_eq_true, List.contains_iff_mem, List.contains_iff_mem]
  rcases hfixed name h with rfl | hmem
  · exact Or.inr List.mem_cons_self
  · left
    rw [draft, List.map_append]
    exact List.mem_append_left _ hmem

/-- The grammar of regexes can be built over every alphabet. -/
theorem exists_grammar (S : Alphabet) : ∃ g, grammar S = .ok g := by
  refine Draft.exists_build (fun rule hrule name hname => defines_of_mem ?_)
    (defines_of_mem (show "U" ∈ nonterminalNames by decide))
    fun name hcycle => Nat.lt_irrefl _ (height_lt_of_transGen hcycle)
  have hknown := Bool.and_eq_true_iff.mp (usesKnown_of_mem hrule)
  exact List.contains_iff_mem.mp (List.all_eq_true.mp hknown.2 _ hname)

/-- The parser returns the trees from `U` whose leaves spell the text. -/
theorem mem_parse_of_grammar {g : Grammar} (h : grammar S = .ok g) {text : String} :
    t ∈ g.parse text ↔ TreeOf S "U" t ∧ t.leaves = text.toList := by
  rw [Grammar.mem_parse_of_faithful (Draft.checked_of_build h) (Draft.faithful_of_build h),
    Draft.rules_of_build h, Draft.start_of_build h]
  rfl

end RegularLanguages.Regex
