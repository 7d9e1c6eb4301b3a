import RegularLanguages.Proofs.Regex.Count
import RegularLanguages.Proofs.Regex.Grammar

/-!
# Layered regexes and their trees

A regex can be read back from its text if it follows the layers of the grammar: the operands of an
operator bind at least as strongly as the place they stand at asks for. `Layered` says this without
mentioning the grammar.

Every regex has a layer of its own, given by its topmost operator. Where a weaker layer is asked for,
the parse tree has one node for each layer in between, which says nothing else. So the tree of a regex
at a layer can be written down (`treeAt`). It is the only tree for this regex: what remains of a tree
after the nodes in between are skipped tells which nodes were skipped.
-/

namespace RegularLanguages.Regex

/-- The layers, the strongest binding first. -/
inductive Layer where
  | atom
  | repetition
  | option
  | concatenation
  | union
  deriving DecidableEq

/-- The nonterminal of a layer. -/
def Layer.name : Layer → String
  | .atom => "A"
  | .repetition => "R"
  | .option => "O"
  | .concatenation => "C"
  | .union => "U"

/-- How weakly a layer binds. -/
def Layer.height : Layer → Nat
  | .atom => 0
  | .repetition => 1
  | .option => 2
  | .concatenation => 3
  | .union => 4

/-- The regex may stand, without parentheses, where the grammar asks for the layer. -/
inductive Layered (S : Alphabet) : Layer → Regex → Prop
  | union {a b : Regex} (ha : Layered S .concatenation a) (hb : Layered S .union b) :
      Layered S .union (.union a b)
  | emptyUnion {a : Regex} (ha : Layered S .union a) : Layered S .union (.emptyUnion a)
  | empty : Layered S .union .empty
  | ofConcatenation {a : Regex} (ha : Layered S .concatenation a) : Layered S .union a
  | concatenation {a b : Regex} (ha : Layered S .option a) (hb : Layered S .concatenation b) :
      Layered S .concatenation (.concatenation a b)
  | ofOption {a : Regex} (ha : Layered S .option a) : Layered S .concatenation a
  | option {a : Regex} (ha : Layered S .repetition a) : Layered S .option (.option a)
  | ofRepetition {a : Regex} (ha : Layered S .repetition a) : Layered S .option a
  | star {a : Regex} (ha : Layered S .atom a) : Layered S .repetition (.star a)
  | plus {a : Regex} (ha : Layered S .atom a) : Layered S .repetition (.plus a)
  | repetition {a : Regex} {count : String} (ha : Layered S .atom a) (hcount : IsDecimal count) :
      Layered S .repetition (.repetition a (.digits count))
  | ofAtom {a : Regex} (ha : Layered S .atom a) : Layered S .repetition a
  | paren {a : Regex} (ha : Layered S .union a) : Layered S .atom (.paren a)
  | terminal {c : Char} (hc : c ∈ S.symbols) : Layered S .atom (.terminal c)

/-! ## Own layers -/

/-- The layer of the topmost operator. -/
def layer : Regex → Layer
  | union _ _ | emptyUnion _ | empty => .union
  | concatenation _ _ => .concatenation
  | option _ => .option
  | star _ | plus _ | repetition _ _ => .repetition
  | paren _ | terminal _ | digits _ => .atom

variable {S : Alphabet} {l : Layer} {x : Regex} {t : ParseTree}

theorem Layered.height_layer_le (h : Layered S l x) : x.layer.height ≤ l.height := by
  induction h with
  | union | emptyUnion | empty | concatenation | option | star | plus | repetition | paren
  | terminal => exact Nat.le_refl _
  | ofConcatenation _ ih | ofOption _ ih | ofRepetition _ ih | ofAtom _ ih => exact Nat.le_succ_of_le ih

/-! ## Trees -/

/-- A tree from `A`, or a tree that is from `R` already, as a tree from `R`. -/
def overAtom (own : Layer) (t : ParseTree) : ParseTree :=
  if own = .repetition then t else .node 11 .forward [t]

/-- A tree from `O`, made of a tree from the layer's own nonterminal. -/
def overRepetition (own : Layer) (t : ParseTree) : ParseTree :=
  if own = .option then t else .node 7 .forward [overAtom own t]

/-- A tree from `C`, made of a tree from the layer's own nonterminal. -/
def overOption (own : Layer) (t : ParseTree) : ParseTree :=
  if own = .concatenation then t else .node 5 .forward [overRepetition own t]

/-- A tree from `U`, made of a tree from the layer's own nonterminal. -/
def overConcatenation (own : Layer) (t : ParseTree) : ParseTree :=
  if own = .union then t else .node 3 .forward [overOption own t]

/-- A tree of one layer, wrapped as a tree of a layer that binds no stronger. -/
def raise (own : Layer) (t : ParseTree) : Layer → ParseTree
  | .atom => t
  | .repetition => overAtom own t
  | .option => overRepetition own t
  | .concatenation => overOption own t
  | .union => overConcatenation own t

/-- The tree of a symbol. -/
def symbolTree (S : Alphabet) (c : Char) : ParseTree :=
  .node (26 + S.symbols.idxOf c) .terminal [.leaf c]

/-- The tree of a regex at its own layer. -/
def tree (S : Alphabet) : Regex → ParseTree
  | union a b => .node 0 .union
    [raise a.layer (a.tree S) .concatenation, .leaf '|', raise b.layer (b.tree S) .union]
  | emptyUnion a => .node 1 .emptyUnion [.leaf '|', raise a.layer (a.tree S) .union]
  | empty => .node 2 .empty []
  | concatenation a b => .node 4 .concatenation
    [raise a.layer (a.tree S) .option, raise b.layer (b.tree S) .concatenation]
  | option a => .node 6 .option [raise a.layer (a.tree S) .repetition, .leaf '?']
  | star a => .node 8 .star [raise a.layer (a.tree S) .atom, .leaf '*']
  | plus a => .node 9 .plus [raise a.layer (a.tree S) .atom, .leaf '+']
  | repetition a count =>
    .node 10 .repetition [raise a.layer (a.tree S) .atom, .leaf '^', count.tree S]
  | paren a => .node 12 .paren [.leaf '(', raise a.layer (a.tree S) .union, .leaf ')']
  | terminal c => .node 13 .forward [symbolTree S c]
  | digits count => countTree count.toList

/-- The tree of a regex where a layer is asked for. -/
def treeAt (S : Alphabet) (l : Layer) (x : Regex) : ParseTree := raise x.layer (x.tree S) l

/-! ## Nodes in between -/

theorem Layered.layer_ne (h : Layered S l x) {weaker : Layer} (hlt : l.height < weaker.height) :
    x.layer ≠ weaker := by
  rintro rfl
  exact Nat.not_le_of_lt hlt h.height_layer_le

theorem Layered.treeAt_union (h : Layered S .concatenation x) :
    x.treeAt S .union = .node 3 .forward [x.treeAt S .concatenation] :=
  if_neg (h.layer_ne (by decide))

theorem Layered.treeAt_concatenation (h : Layered S .option x) :
    x.treeAt S .concatenation = .node 5 .forward [x.treeAt S .option] :=
  if_neg (h.layer_ne (by decide))

theorem Layered.treeAt_option (h : Layered S .repetition x) :
    x.treeAt S .option = .node 7 .forward [x.treeAt S .repetition] :=
  if_neg (h.layer_ne (by decide))

theorem Layered.treeAt_repetition (h : Layered S .atom x) :
    x.treeAt S .repetition = .node 11 .forward [x.treeAt S .atom] :=
  if_neg (h.layer_ne (by decide))

theorem treeOf_symbol_iff : TreeOf S "L" t ↔ ∃ c ∈ S.symbols, t = symbolTree S c := by
  have hnodup : S.symbols.Nodup := S.increasing.imp fun h => Char.ne_of_lt h
  rw [treeOf_symbol]
  constructor
  · rintro ⟨k, c, rfl, hc⟩
    obtain ⟨hmem, rfl⟩ := (getElem?_eq_some_iff_idxOf hnodup).mp hc
    exact ⟨c, hmem, rfl⟩
  · rintro ⟨c, hc, rfl⟩
    exact ⟨_, c, rfl, (getElem?_eq_some_iff_idxOf hnodup).mpr ⟨hc, rfl⟩⟩

end RegularLanguages.Regex
