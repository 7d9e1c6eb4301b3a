import RegularLanguages.Grammar.Basic

/-!
# Self derivation

A nonterminal that derives itself without reading anything would give a word infinitely many parse
trees. This module looks for such a nonterminal.

## Mechanism

A production leads from its left side to each of its nonterminals whose neighbours are all nullable:
there the production can shrink to that nonterminal alone. A nonterminal derives itself exactly if
it lies on a cycle of these edges. The search is depth first, from each nonterminal in turn. A
nonterminal is active while the search is below it; an edge to an active one closes a cycle.

## Termination

No fuel. Entering a fresh nonterminal lowers the number of fresh ones. Every other move uses up an
edge or a frame of the stack, whose number `pendingWork` counts.
-/

namespace RegularLanguages.Grammar

/-! ## Edges -/

/-- The nonterminals that a row of items can shrink to. `alone` says whether all items to the left
of the row are nullable. -/
def shrinkTargets (known : List Nat) : Bool → List Item → List Nat
  | _, [] => []
  | alone, item :: rest =>
    let here :=
      match item with
      | .nonterminal id => if alone && rest.all (Item.isNullableIn known) then [id] else []
      | .terminal _ => []
    here ++ shrinkTargets known (alone && item.isNullableIn known) rest

/-- The nonterminals that the given one can shrink to in one step, in the order of the
productions. -/
def shrinksTo (productions : List Production) (known : List Nat) (id : Nat) : List Nat :=
  productions.flatMap fun p => if p.lhs = id then shrinkTargets known true p.items else []

/-! ## Search -/

/-- How far the search has come with a nonterminal. -/
inductive Progress where
  | fresh
  | active
  | done
  deriving DecidableEq, Repr

/-- A nonterminal that the search is below, with the edges that are still to be followed. -/
structure Frame where
  node : Nat
  pending : List Nat

/-- How many moves the frames of a stack still allow, new frames apart. -/
def pendingWork : List Frame → Nat
  | [] => 0
  | frame :: stack => frame.pending.length + 1 + pendingWork stack

/-- How many nonterminals are fresh. -/
def freshCount (progress : Array Progress) : Nat := progress.count .fresh

/-- Entering a fresh nonterminal leaves fewer fresh ones. -/
theorem freshCount_enter_lt {progress : Array Progress} {id : Nat}
    (h : progress[id]? = some .fresh) :
    freshCount (progress.setIfInBounds id .active) < freshCount progress := by
  obtain ⟨hid, hget⟩ := Array.getElem?_eq_some_iff.1 h
  have hpos : 0 < progress.count .fresh := Array.count_pos_iff.2 (hget ▸ Array.getElem_mem hid)
  rw [freshCount, freshCount, Array.setIfInBounds, dif_pos hid, Array.count_set, hget]
  have hactive : (Progress.active == Progress.fresh) = false := rfl
  simp only [beq_self_eq_true, hactive, if_true, Bool.false_eq_true, if_false]
  omega

/-- Finishing a nonterminal makes none fresh. -/
theorem freshCount_finish_le (progress : Array Progress) (id : Nat) :
    freshCount (progress.setIfInBounds id .done) ≤ freshCount progress := by
  unfold Array.setIfInBounds
  split
  · rw [freshCount, freshCount, Array.count_set]
    simp
  · exact Nat.le_refl _

/-- Follows the edges of the frames. The answer is the first nonterminal that an edge leads to while
it is active; otherwise what has become of all nonterminals. -/
def followEdges (next : Nat → List Nat) :
    List Frame → Array Progress → Except Nat (Array Progress)
  | [], progress => .ok progress
  | ⟨node, []⟩ :: stack, progress => followEdges next stack (progress.setIfInBounds node .done)
  | ⟨node, id :: pending⟩ :: stack, progress =>
    match _h : progress[id]? with
    | some .fresh =>
      followEdges next (⟨id, next id⟩ :: ⟨node, pending⟩ :: stack)
        (progress.setIfInBounds id .active)
    | some .active => .error id
    | some .done => followEdges next (⟨node, pending⟩ :: stack) progress
    | none => followEdges next (⟨node, pending⟩ :: stack) progress
termination_by stack progress => (freshCount progress, pendingWork stack)
decreasing_by
  · exact Prod.Lex.right' _ (freshCount_finish_le progress node)
      (by simp only [pendingWork, List.length_nil]; omega)
  · exact Prod.Lex.left _ _ (freshCount_enter_lt _h)
  · exact Prod.Lex.right _ (by simp only [pendingWork, List.length_cons]; omega)
  · exact Prod.Lex.right _ (by simp only [pendingWork, List.length_cons]; omega)

/-- Searches from the given nonterminals, one after the other. -/
def searchFrom (next : Nat → List Nat) : List Nat → Array Progress → Option Nat
  | [], _ => none
  | root :: roots, progress =>
    if progress[root]? = some .fresh then
      match followEdges next [⟨root, next root⟩] (progress.setIfInBounds root .active) with
      | .error id => some id
      | .ok progress => searchFrom next roots progress
    else searchFrom next roots progress

/-- A nonterminal that derives itself without reading anything, if there is one. -/
def selfDerivation? (count : Nat) (productions : List Production) (known : List Nat) : Option Nat :=
  let edges := ((List.range count).map (shrinksTo productions known)).toArray
  searchFrom (fun id => edges.getD id []) (List.range count) (Array.replicate count .fresh)

end RegularLanguages.Grammar
