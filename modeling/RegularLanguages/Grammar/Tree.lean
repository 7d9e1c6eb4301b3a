import RegularLanguages.Grammar.Rule

/-!
# Parse trees

A leaf is a terminal that was read. A node is an application of a rule, with one child for each
symbol on the right of the rule, in order.
-/

namespace RegularLanguages

/-- A parse tree. A node carries the number and the kind of its rule. -/
inductive ParseTree where
  | leaf (c : Char)
  | node (rule : Nat) (kind : Kind) (children : List ParseTree)
  deriving Repr, Inhabited

namespace ParseTree

/-- The kind of a node; a leaf has none. -/
def kind? : ParseTree → Option Kind
  | leaf _ => none
  | node _ kind _ => some kind

/-- Whether a tree is a node. -/
def isNode (t : ParseTree) : Bool := t.kind?.isSome

/-- The children of a node; a leaf has none. -/
def children : ParseTree → List ParseTree
  | leaf _ => []
  | node _ _ children => children

mutual

/-- The terminals at the leaves, from left to right. -/
def leaves : ParseTree → List Char
  | leaf c => [c]
  | node _ _ children => leavesOfAll children

/-- The terminals at the leaves of a row of trees, from left to right. -/
def leavesOfAll : List ParseTree → List Char
  | [] => []
  | t :: rest => leaves t ++ leavesOfAll rest

end

/-! ## Equality -/

mutual

/-- Two trees are compared node by node. -/
def decideEq : (s t : ParseTree) → Decidable (s = t)
  | leaf c, leaf d =>
    if h : c = d then isTrue (congrArg leaf h) else isFalse fun e => h (ParseTree.leaf.inj e)
  | leaf _, node _ _ _ => isFalse nofun
  | node _ _ _, leaf _ => isFalse nofun
  | node rule kind children, node rule' kind' children' =>
    if h : rule = rule' ∧ kind = kind' then
      match decideEqAll children children' with
      | isTrue hc => isTrue (by rw [h.1, h.2, hc])
      | isFalse hc => isFalse fun e => hc (ParseTree.node.inj e).2.2
    else isFalse fun e => h ⟨(ParseTree.node.inj e).1, (ParseTree.node.inj e).2.1⟩

/-- Two rows of trees are compared tree by tree. -/
def decideEqAll : (s t : List ParseTree) → Decidable (s = t)
  | [], [] => isTrue rfl
  | [], _ :: _ => isFalse nofun
  | _ :: _, [] => isFalse nofun
  | s :: ss, t :: ts =>
    match decideEq s t with
    | isFalse h => isFalse fun e => h (List.cons.inj e).1
    | isTrue h =>
      match decideEqAll ss ts with
      | isTrue hs => isTrue (by rw [h, hs])
      | isFalse hs => isFalse fun e => hs (List.cons.inj e).2

end

instance : DecidableEq ParseTree := decideEq

end ParseTree

end RegularLanguages
