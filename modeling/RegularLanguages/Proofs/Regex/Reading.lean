import RegularLanguages.Proofs.Regex.Layer

/-!
# Reading a regex back from its text

Over every alphabet, the parse trees of a text and the layered regexes with this text correspond to
each other. From a regex to a tree goes `treeAt`, from a tree to a regex `ofTree`.

That `ofTree` undoes `treeAt` is proved along the layers, and that every tree is `treeAt` of some
layered regex along the tree. The second fact also gives the text: printing the regex prints the
leaves of the tree.
-/

namespace RegularLanguages.Regex

variable {S : Alphabet} {l : Layer} {x : Regex} {t : ParseTree}

/-! ## From regexes to trees -/

/-- **The tree of a layered regex is a tree of the grammar.** -/
theorem Layered.treeOf_treeAt (h : Layered S l x) : TreeOf S l.name (x.treeAt S l) := by
  induction h with
  | union _ _ iha ihb => exact treeOf_union.mpr (Or.inl ⟨_, _, rfl, iha, ihb⟩)
  | emptyUnion _ ih => exact treeOf_union.mpr (Or.inr (Or.inl ⟨_, rfl, ih⟩))
  | empty => exact treeOf_union.mpr (Or.inr (Or.inr (Or.inl rfl)))
  | ofConcatenation ha ih =>
    rw [ha.treeAt_union]
    exact treeOf_union.mpr (Or.inr (Or.inr (Or.inr ⟨_, rfl, ih⟩)))
  | concatenation _ _ iha ihb => exact treeOf_concatenation.mpr (Or.inl ⟨_, _, rfl, iha, ihb⟩)
  | ofOption ha ih =>
    rw [ha.treeAt_concatenation]
    exact treeOf_concatenation.mpr (Or.inr ⟨_, rfl, ih⟩)
  | option _ ih => exact treeOf_option.mpr (Or.inl ⟨_, rfl, ih⟩)
  | ofRepetition ha ih =>
    rw [ha.treeAt_option]
    exact treeOf_option.mpr (Or.inr ⟨_, rfl, ih⟩)
  | star _ ih => exact treeOf_repetition.mpr (Or.inl ⟨_, rfl, ih⟩)
  | plus _ ih => exact treeOf_repetition.mpr (Or.inr (Or.inl ⟨_, rfl, ih⟩))
  | @repetition _ count _ hcount ih =>
    have hdigits : TreeOf S "I" (countTree count.toList) :=
      treeOf_count_iff.mpr ⟨_, hcount.1, hcount.2, rfl⟩
    exact treeOf_repetition.mpr (Or.inr (Or.inr (Or.inl ⟨_, _, rfl, ih, hdigits⟩)))
  | ofAtom ha ih =>
    rw [ha.treeAt_repetition]
    exact treeOf_repetition.mpr (Or.inr (Or.inr (Or.inr ⟨_, rfl, ih⟩)))
  | paren _ ih => exact treeOf_atom.mpr (Or.inl ⟨_, rfl, ih⟩)
  | terminal hc =>
    exact treeOf_atom.mpr (Or.inr ⟨_, rfl, treeOf_symbol_iff.mpr ⟨_, hc, rfl⟩⟩)

/-! ## From trees to regexes -/

theorem ofOperands_leaf (c : Char) (rest : List ParseTree) :
    ofOperands (.leaf c :: rest) = ofOperands rest := by
  rw [ofOperands]

/-- A tree that stands for a regex is an operand. -/
theorem ofOperands_of_ok (h : ofTree t = .ok x) (rest : List ParseTree) :
    ofOperands (t :: rest) = .ok x :: ofOperands rest := by
  cases t with
  | leaf c =>
    rw [ofTree] at h
    cases h
  | node i kind children => rw [ofOperands, h]

theorem ofTree_countTree {count : String} (h : IsDecimal count) :
    ofTree (countTree count.toList) = .ok (.digits count) := by
  have hleaves := leaves_countTree h.1
  obtain ⟨i, children, htree⟩ := exists_countTree_eq count.toList
  rw [htree, ParseTree.leaves] at hleaves
  rw [htree, ofTree, hleaves]
  show Except.ok (digits (String.ofList count.toList)) = _
  rw [String.ofList_toList]

/-- **The tree of a layered regex stands for it.** -/
theorem Layered.ofTree_treeAt (h : Layered S l x) : ofTree (x.treeAt S l) = .ok x := by
  induction h with
  | @union a b _ _ iha ihb =>
    show ofTree (.node 0 .union [a.treeAt S .concatenation, .leaf '|', b.treeAt S .union]) = _
    rw [ofTree, ofOperands_of_ok iha, ofOperands_leaf, ofOperands_of_ok ihb]
    rfl
  | @emptyUnion a _ ih =>
    show ofTree (.node 1 .emptyUnion [.leaf '|', a.treeAt S .union]) = _
    rw [ofTree, ofOperands_leaf, ofOperands_of_ok ih]
    rfl
  | empty => rfl
  | ofConcatenation ha ih =>
    rw [ha.treeAt_union, ofTree, ofOperands_of_ok ih]
    rfl
  | @concatenation a b _ _ iha ihb =>
    show ofTree (.node 4 .concatenation [a.treeAt S .option, b.treeAt S .concatenation]) = _
    rw [ofTree, ofOperands_of_ok iha, ofOperands_of_ok ihb]
    rfl
  | ofOption ha ih =>
    rw [ha.treeAt_concatenation, ofTree, ofOperands_of_ok ih]
    rfl
  | @option a _ ih =>
    show ofTree (.node 6 .option [a.treeAt S .repetition, .leaf '?']) = _
    rw [ofTree, ofOperands_of_ok ih]
    rfl
  | ofRepetition ha ih =>
    rw [ha.treeAt_option, ofTree, ofOperands_of_ok ih]
    rfl
  | @star a _ ih =>
    show ofTree (.node 8 .star [a.treeAt S .atom, .leaf '*']) = _
    rw [ofTree, ofOperands_of_ok ih]
    rfl
  | @plus a _ ih =>
    show ofTree (.node 9 .plus [a.treeAt S .atom, .leaf '+']) = _
    rw [ofTree, ofOperands_of_ok ih]
    rfl
  | @repetition a count _ hcount ih =>
    show ofTree (.node 10 .repetition [a.treeAt S .atom, .leaf '^', countTree count.toList]) = _
    rw [ofTree, ofOperands_of_ok ih, ofOperands_leaf, ofOperands_of_ok (ofTree_countTree hcount)]
    rfl
  | ofAtom ha ih =>
    rw [ha.treeAt_repetition, ofTree, ofOperands_of_ok ih]
    rfl
  | @paren a _ ih =>
    show ofTree (.node 12 .paren [.leaf '(', a.treeAt S .union, .leaf ')']) = _
    rw [ofTree, ofOperands_leaf, ofOperands_of_ok ih]
    rfl
  | terminal _ => rfl

/-! ## Every tree comes from a regex -/

/-- The tree is the tree of the layered regex, and its leaves spell the regex's text. -/
structure Explains (S : Alphabet) (l : Layer) (t : ParseTree) (x : Regex) : Prop where
  layered : Layered S l x
  tree_eq : t = x.treeAt S l
  leaves_eq : t.leaves = x.toString.toList

/-- The children of the tree that are trees of a layer come from regexes. -/
def ChildrenExplained (S : Alphabet) (t : ParseTree) : Prop :=
  ∀ child ∈ t.children, ∀ l : Layer, TreeOf S l.name child → ∃ x, Explains S l child x

theorem ChildrenExplained.exists_union (ih : ChildrenExplained S t) (h : TreeOf S "U" t) :
    ∃ x, Explains S .union t x := by
  rcases treeOf_union.mp h with ⟨a, b, rfl, ha, hb⟩ | ⟨a, rfl, ha⟩ | rfl | ⟨a, rfl, ha⟩
  · obtain ⟨x, hx⟩ := ih a (by simp [ParseTree.children]) .concatenation ha
    obtain ⟨y, hy⟩ := ih b (by simp [ParseTree.children]) .union hb
    refine ⟨.union x y, .union hx.layered hy.layered, ?_, ?_⟩
    · rw [hx.tree_eq, hy.tree_eq]
      rfl
    · simp [Regex.toString, hx.leaves_eq, hy.leaves_eq]
  · obtain ⟨x, hx⟩ := ih a (by simp [ParseTree.children]) .union ha
    refine ⟨.emptyUnion x, .emptyUnion hx.layered, ?_, ?_⟩
    · rw [hx.tree_eq]
      rfl
    · simp [Regex.toString, hx.leaves_eq]
  · exact ⟨.empty, .empty, rfl, rfl⟩
  · obtain ⟨x, hx⟩ := ih a (by simp [ParseTree.children]) .concatenation ha
    refine ⟨x, .ofConcatenation hx.layered, ?_, ?_⟩
    · rw [hx.layered.treeAt_union, ← hx.tree_eq]
    · simp [hx.leaves_eq]

theorem ChildrenExplained.exists_concatenation (ih : ChildrenExplained S t)
    (h : TreeOf S "C" t) : ∃ x, Explains S .concatenation t x := by
  rcases treeOf_concatenation.mp h with ⟨a, b, rfl, ha, hb⟩ | ⟨a, rfl, ha⟩
  · obtain ⟨x, hx⟩ := ih a (by simp [ParseTree.children]) .option ha
    obtain ⟨y, hy⟩ := ih b (by simp [ParseTree.children]) .concatenation hb
    refine ⟨.concatenation x y, .concatenation hx.layered hy.layered, ?_, ?_⟩
    · rw [hx.tree_eq, hy.tree_eq]
      rfl
    · simp [Regex.toString, hx.leaves_eq, hy.leaves_eq]
  · obtain ⟨x, hx⟩ := ih a (by simp [ParseTree.children]) .option ha
    refine ⟨x, .ofOption hx.layered, ?_, ?_⟩
    · rw [hx.layered.treeAt_concatenation, ← hx.tree_eq]
    · simp [hx.leaves_eq]

theorem ChildrenExplained.exists_option (ih : ChildrenExplained S t) (h : TreeOf S "O" t) :
    ∃ x, Explains S .option t x := by
  rcases treeOf_option.mp h with ⟨a, rfl, ha⟩ | ⟨a, rfl, ha⟩
  · obtain ⟨x, hx⟩ := ih a (by simp [ParseTree.children]) .repetition ha
    refine ⟨.option x, .option hx.layered, ?_, ?_⟩
    · rw [hx.tree_eq]
      rfl
    · simp [Regex.toString, hx.leaves_eq]
  · obtain ⟨x, hx⟩ := ih a (by simp [ParseTree.children]) .repetition ha
    refine ⟨x, .ofRepetition hx.layered, ?_, ?_⟩
    · rw [hx.layered.treeAt_option, ← hx.tree_eq]
    · simp [hx.leaves_eq]

theorem ChildrenExplained.exists_repetition (ih : ChildrenExplained S t) (h : TreeOf S "R" t) :
    ∃ x, Explains S .repetition t x := by
  rcases treeOf_repetition.mp h with ⟨a, rfl, ha⟩ | ⟨a, rfl, ha⟩ | ⟨a, b, rfl, ha, hb⟩ | ⟨a, rfl, ha⟩
  · obtain ⟨x, hx⟩ := ih a (by simp [ParseTree.children]) .atom ha
    refine ⟨.star x, .star hx.layered, ?_, ?_⟩
    · rw [hx.tree_eq]
      rfl
    · simp [Regex.toString, hx.leaves_eq]
  · obtain ⟨x, hx⟩ := ih a (by simp [ParseTree.children]) .atom ha
    refine ⟨.plus x, .plus hx.layered, ?_, ?_⟩
    · rw [hx.tree_eq]
      rfl
    · simp [Regex.toString, hx.leaves_eq]
  · obtain ⟨x, hx⟩ := ih a (by simp [ParseTree.children]) .atom ha
    obtain ⟨cs, hcs, hdigits, rfl⟩ := treeOf_count_iff.mp hb
    have hcount : IsDecimal (String.ofList cs) := by simpa [IsDecimal] using ⟨hcs, hdigits⟩
    refine ⟨.repetition x (.digits (String.ofList cs)), .repetition hx.layered hcount, ?_, ?_⟩
    · show _ = ParseTree.node 10 .repetition
        [x.treeAt S .atom, .leaf '^', countTree (String.ofList cs).toList]
      rw [hx.tree_eq, String.toList_ofList]
    · simp [Regex.toString, hx.leaves_eq, leaves_countTree hcs]
  · obtain ⟨x, hx⟩ := ih a (by simp [ParseTree.children]) .atom ha
    refine ⟨x, .ofAtom hx.layered, ?_, ?_⟩
    · rw [hx.layered.treeAt_repetition, ← hx.tree_eq]
    · simp [hx.leaves_eq]

theorem ChildrenExplained.exists_atom (ih : ChildrenExplained S t) (h : TreeOf S "A" t) :
    ∃ x, Explains S .atom t x := by
  rcases treeOf_atom.mp h with ⟨a, rfl, ha⟩ | ⟨a, rfl, ha⟩
  · obtain ⟨x, hx⟩ := ih a (by simp [ParseTree.children]) .union ha
    refine ⟨.paren x, .paren hx.layered, ?_, ?_⟩
    · rw [hx.tree_eq]
      rfl
    · simp [Regex.toString, hx.leaves_eq]
  · obtain ⟨c, hc, rfl⟩ := treeOf_symbol_iff.mp ha
    exact ⟨.terminal c, .terminal hc, rfl, by simp [Regex.toString, symbolTree]⟩

/-- **Every tree of a layer is the tree of a layered regex**, and its leaves spell the text. -/
theorem exists_explains (t : ParseTree) :
    ∀ l : Layer, TreeOf S l.name t → ∃ x, Explains S l t x := by
  -- the layers ask for one lemma each, whatever the tree looks like
  have hstep : ∀ t : ParseTree, ChildrenExplained S t →
      ∀ l : Layer, TreeOf S l.name t → ∃ x, Explains S l t x := by
    intro t ih l h
    cases l with
    | union => exact ih.exists_union h
    | concatenation => exact ih.exists_concatenation h
    | option => exact ih.exists_option h
    | repetition => exact ih.exists_repetition h
    | atom => exact ih.exists_atom h
  induction t using ParseTree.recOnChildren with
  | leaf c => exact hstep _ fun child hchild => absurd hchild List.not_mem_nil
  | node i kind children ih => exact hstep _ ih

/-! ## Texts -/

theorem Layered.leaves_treeAt (h : Layered S l x) : (x.treeAt S l).leaves = x.toString.toList := by
  -- the tree comes from some regex with this text, and reading the tree shows which one it is
  obtain ⟨y, hy⟩ := exists_explains _ l h.treeOf_treeAt
  have hsame : (.ok x : Except Error Regex) = .ok y := by
    rw [← h.ofTree_treeAt, hy.tree_eq, hy.layered.ofTree_treeAt]
  rw [hy.leaves_eq, Except.ok.inj hsame]

/-- **Parse trees and layered regexes correspond.** Over every alphabet the grammar of regexes passes
its checks. For every text, turning trees into regexes succeeds on the parse trees of the text, and it
is a bijection from these to the layered regexes that are printed as the text. -/
theorem grammar_parse_bijOn (S : Alphabet) :
    ∃ g, grammar S = .ok g ∧ ∀ text : String, Set.BijOn ofTree {t | t ∈ g.parse text}
      (Except.ok '' {x | Layered S .union x ∧ toString x = text}) := by
  obtain ⟨g, hg⟩ := exists_grammar S
  refine ⟨g, hg, fun text => ⟨fun t ht => ?_, fun t ht u hu heq => ?_, ?_⟩⟩
  · obtain ⟨htree, hleaves⟩ := (mem_parse_of_grammar hg).mp ht
    obtain ⟨x, hx⟩ := exists_explains t .union htree
    refine ⟨x, ⟨hx.layered, ?_⟩, ?_⟩
    · exact String.toList_inj.mp (hx.leaves_eq.symm.trans hleaves)
    · rw [hx.tree_eq, hx.layered.ofTree_treeAt]
  · obtain ⟨x, hx⟩ := exists_explains t .union ((mem_parse_of_grammar hg).mp ht).1
    obtain ⟨y, hy⟩ := exists_explains u .union ((mem_parse_of_grammar hg).mp hu).1
    rw [hx.tree_eq, hy.tree_eq, hx.layered.ofTree_treeAt, hy.layered.ofTree_treeAt] at heq
    rw [hx.tree_eq, hy.tree_eq, Except.ok.inj heq]
  · rintro _ ⟨x, ⟨hx, rfl⟩, rfl⟩
    exact ⟨x.treeAt S .union, (mem_parse_of_grammar hg).mpr ⟨hx.treeOf_treeAt, hx.leaves_treeAt⟩,
      hx.ofTree_treeAt⟩

end RegularLanguages.Regex
