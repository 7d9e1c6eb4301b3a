import RegularLanguages.Proofs.Automaton.Construction
import RegularLanguages.Proofs.Automaton.Memo

/-!
# Walks along the transitions

A walk is a row of transitions from the list of all transitions, each of which begins where the one
before it ends. The word of a walk is read off its labels, and those of ε moves are left out. So a
walk is a path with its states written down, and an automaton accepts the words of its walks from the
start to an accepting state.
-/

namespace RegularLanguages

/-- The symbol number of a label; ε has none. -/
def Label.id? : Label → Option Nat
  | .epsilon => none
  | .symbol id => some id

namespace Automaton

variable {α : Type} {m : Automaton} {spell : Nat → Option α}

/-! ## Walks -/

/-- The row of transitions leads from the first state to the second. -/
inductive Walk (m : Automaton) : Nat → List Transition → Nat → Prop
  | nil (q : Nat) : Walk m q [] q
  | cons {q r s : Nat} {label : Label} {rest : List Transition}
      (hmem : (q, label, r) ∈ m.transitions) (hrest : Walk m r rest s) :
      Walk m q ((q, label, r) :: rest) s

/-- The symbol numbers along a row of transitions, in order, without the ε moves. -/
def symbolsAlong (steps : List Transition) : List Nat := steps.filterMap fun t => t.2.1.id?

/-- The walk leads from the start to an accepting state. -/
def AcceptingWalk (m : Automaton) (steps : List Transition) : Prop :=
  ∃ q, m.accepting.contains q = true ∧ m.Walk m.start steps q

@[simp] theorem symbolsAlong_epsilon (q r : Nat) (rest : List Transition) :
    symbolsAlong ((q, .epsilon, r) :: rest) = symbolsAlong rest := rfl

@[simp] theorem symbolsAlong_symbol (q r id : Nat) (rest : List Transition) :
    symbolsAlong ((q, .symbol id, r) :: rest) = id :: symbolsAlong rest := rfl

/-! ## Walks and paths -/

/-- A path is a walk whose symbol numbers spell the word. -/
theorem path_iff_walk {q r : Nat} {w : List α} :
    m.Path spell q w r ↔
      ∃ steps, m.Walk q steps r ∧ (symbolsAlong steps).map spell = w.map some := by
  constructor
  · intro h
    induction h with
    | refl q => exact ⟨[], .nil q, rfl⟩
    | epsilon hedge _ ih =>
      obtain ⟨steps, hwalk, hspell⟩ := ih
      exact ⟨_ :: steps, .cons (mem_transitions.mpr hedge) hwalk, hspell⟩
    | symbol hedge hid _ ih =>
      obtain ⟨steps, hwalk, hspell⟩ := ih
      refine ⟨_ :: steps, .cons (mem_transitions.mpr hedge) hwalk, ?_⟩
      rw [symbolsAlong_symbol, List.map_cons, List.map_cons, hid, hspell]
  · rintro ⟨steps, hwalk, hspell⟩
    induction hwalk generalizing w with
    | nil q =>
      obtain rfl := List.map_eq_nil_iff.mp hspell.symm
      exact .refl q
    | @cons q r s label rest hmem _ ih =>
      have hedge := mem_transitions.mp hmem
      cases label with
      | epsilon => exact .epsilon hedge (ih hspell)
      | symbol id =>
        rw [symbolsAlong_symbol, List.map_cons] at hspell
        -- the word begins with what the symbol stands for
        obtain ⟨x, w, rfl, hx, hrest⟩ := List.map_eq_cons_iff.mp hspell.symm
        exact .symbol hedge hx.symm (ih hrest.symm)

theorem mem_language_iff_walk {w : List α} :
    w ∈ m.language spell ↔
      ∃ steps, m.AcceptingWalk steps ∧ (symbolsAlong steps).map spell = w.map some := by
  simp only [mem_language, path_iff_walk, AcceptingWalk]
  constructor
  · rintro ⟨q, hq, steps, hwalk, hspell⟩
    exact ⟨steps, ⟨q, hq, hwalk⟩, hspell⟩
  · rintro ⟨steps, ⟨q, hq, hwalk⟩, hspell⟩
    exact ⟨q, hq, steps, hwalk, hspell⟩

/-! ## Acceptance -/

/-- **A constructed automaton accepts what its walks spell.** A word is accepted if and only if the
symbols of a walk from the start to an accepting state are its characters, in order. A row of numbers
is accepted if and only if it is the row of symbol numbers of such a walk, whether or not the numbers
are in the alphabet. The answers are the same if the closures are read off a table. -/
theorem accepts_iff_walk (h : m.Constructed) :
    (∀ w : String,
      (m.accepts w = true ↔ ∃ steps, m.AcceptingWalk steps ∧
        (symbolsAlong steps).map m.alphabet.symbol? = w.toList.map some) ∧
      ((Memo.ofAutomaton m).accepts w).1 = m.accepts w) ∧
    ∀ ids : List Nat,
      (m.acceptsSymbols ids = true ↔ ∃ steps, m.AcceptingWalk steps ∧ symbolsAlong steps = ids) ∧
      ((Memo.ofAutomaton m).acceptsSymbols ids).1 = m.acceptsSymbols ids := by
  refine ⟨fun w => ⟨?_, Memo.accepts_fst rfl w⟩, fun ids => ⟨?_, Memo.acceptsSymbols_fst rfl ids⟩⟩
  · rw [accepts_iff h.wellFormed, mem_language_iff_walk]
  · have hself : ∀ steps : List Transition,
        (symbolsAlong steps).map some = ids.map some ↔ symbolsAlong steps = ids :=
      fun _ => (List.map_injective_iff.mpr (Option.some_injective Nat)).eq_iff
    simp only [acceptsSymbols_iff h.wellFormed, mem_language_iff_walk, hself]

/-- The case of `a*`, whose states lie on a cycle of ε moves and the letter. -/
theorem accepts_iff_walk_star :
    let m := (singleEdge (.ofChars ['a']) 0).star
    m.Constructed ∧
      (∀ w : String,
        (m.accepts w = true ↔ ∃ steps, m.AcceptingWalk steps ∧
          (symbolsAlong steps).map m.alphabet.symbol? = w.toList.map some) ∧
        ((Memo.ofAutomaton m).accepts w).1 = m.accepts w) ∧
      ∀ ids : List Nat,
        (m.acceptsSymbols ids = true ↔ ∃ steps, m.AcceptingWalk steps ∧ symbolsAlong steps = ids) ∧
        ((Memo.ofAutomaton m).acceptsSymbols ids).1 = m.acceptsSymbols ids := by
  have hletter : literal (.ofChars ['a']) 'a' = .ok (singleEdge (.ofChars ['a']) 0) := by rfl
  have hbuilt := (Constructed.literal hletter).star
  exact ⟨hbuilt, accepts_iff_walk hbuilt⟩

end Automaton

end RegularLanguages
