import RegularLanguages.Grammar.Basic
import RegularLanguages.Grammar.Tree
import RegularLanguages.Proofs.Lists

/-!
# Derivation trees

What it means that a tree shows how a symbol derives a word, apart from any parser. `Derivation` is
stated over the rules as they were written and says nothing about the numbers of nonterminals.
`Derives` is the same over productions, where a nonterminal is a number; the chart works with these.

Both are inductive over the tree, with one derivation for each child, so proofs about them go by
induction on the tree (`ParseTree.recOnChildren`) and take the derivation apart at each node.
-/

namespace RegularLanguages

/-! ## Induction on trees -/

/-- To prove something for all trees, it is enough to go from the children of a node to the node. -/
theorem ParseTree.recOnChildren {motive : ParseTree → Prop}
    (leaf : ∀ c, motive (.leaf c))
    (node : ∀ i kind children, (∀ t ∈ children, motive t) → motive (.node i kind children)) :
    ∀ t, motive t
  | .leaf c => leaf c
  | .node i kind children => node i kind children fun t _ => recOnChildren leaf node t

@[simp] theorem ParseTree.leaves_leaf (c : Char) : (ParseTree.leaf c).leaves = [c] := rfl

theorem ParseTree.leavesOfAll_eq (children : List ParseTree) :
    leavesOfAll children = children.flatMap leaves := by
  induction children with
  | nil => rfl
  | cons t rest ih => rw [leavesOfAll, ih, List.flatMap_cons]

@[simp] theorem ParseTree.leaves_node (i : Nat) (kind : Kind) (children : List ParseTree) :
    (ParseTree.node i kind children).leaves = children.flatMap leaves :=
  leavesOfAll_eq children

/-! ## Derivations -/

/-- The tree shows how a symbol derives the word at its leaves. A terminal is its own leaf. A node
carries the number and the kind of a rule, and has one child for each symbol on the right. -/
inductive Derivation (rules : List Rule) : Symbol → ParseTree → Prop
  | leaf (c : Char) : Derivation rules (.terminal c) (.leaf c)
  | node {i : Nat} {rule : Rule} {children : List ParseTree} (hrule : rules[i]? = some rule)
      (hchildren : List.Forall₂ (Derivation rules) rule.rhs children) :
      Derivation rules (.nonterminal rule.lhs) (.node i rule.kind children)

/-- The same over productions. -/
inductive Derives (productions : List Production) : Item → ParseTree → Prop
  | leaf (c : Char) : Derives productions (.terminal c) (.leaf c)
  | node {p : Production} {children : List ParseTree} (hp : p ∈ productions)
      (hchildren : List.Forall₂ (Derives productions) p.items children) :
      Derives productions (.nonterminal p.lhs) (.node p.rule p.kind children)

variable {rules : List Rule} {productions : List Production}

theorem Derives.eq_leaf {c : Char} {t : ParseTree} (h : Derives productions (.terminal c) t) :
    t = .leaf c := by
  cases h
  rfl

theorem Derives.exists_production {id : Nat} {t : ParseTree}
    (h : Derives productions (.nonterminal id) t) :
    ∃ p ∈ productions, ∃ children, p.lhs = id ∧ t = .node p.rule p.kind children ∧
      List.Forall₂ (Derives productions) p.items children := by
  cases h with
  | node hp hchildren => exact ⟨_, hp, _, rfl, rfl, hchildren⟩

end RegularLanguages
