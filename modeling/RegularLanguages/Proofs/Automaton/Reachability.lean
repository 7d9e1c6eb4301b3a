import Mathlib.Logic.Relation
import RegularLanguages.Automaton.Reachability
import RegularLanguages.Proofs.StateSet

/-!
# What the search finds

`search` marks exactly the states that can be reached from its stack through states below the bound.
The proof has two halves. Everything marked was reached (`reached_of_search`). Everything reached is
marked, because the marked states are closed under the moves of the graph: a state is marked and its
successors are put onto the stack in the same move (`search_closed`).
-/

namespace RegularLanguages

variable {next : Nat → List Nat} {bound : Nat}

/-- One move of the search: to a successor below the bound. -/
def Leads (next : Nat → List Nat) (bound : Nat) (q r : Nat) : Prop := r ∈ next q ∧ r < bound

/-! ## Closure of the marked states -/

/-- Marked states stay marked. -/
theorem search_marked {stack : List Nat} {marked : StateSet} {r : Nat}
    (h : marked.contains r = true) : (search next bound stack marked).contains r = true := by
  fun_induction search next bound stack marked with
  | case1 marked => exact h
  | case2 q stack marked hq ih => exact ih (by simp [h])
  | case3 q stack marked hq ih => exact ih h

/-- Every state of the stack that exists ends up marked. -/
theorem search_stack {stack : List Nat} {marked : StateSet} {r : Nat} (hr : r ∈ stack)
    (hb : r < bound) : (search next bound stack marked).contains r = true := by
  fun_induction search next bound stack marked with
  | case1 marked => cases hr
  | case2 q stack marked hq ih =>
    rcases List.mem_cons.mp hr with rfl | hr
    · exact search_marked (by simp)
    · exact ih (List.mem_append_right _ hr)
  | case3 q stack marked hq ih =>
    rcases List.mem_cons.mp hr with rfl | hr
    · exact search_marked (by simpa [hb] using hq)
    · exact ih hr

/-- The states that the search marks are closed under its moves. -/
theorem search_closed {stack : List Nat} {marked : StateSet} {q r : Nat}
    (hq : (search next bound stack marked).contains q = true) (hnew : marked.contains q = false)
    (h : Leads next bound q r) : (search next bound stack marked).contains r = true := by
  fun_induction search next bound stack marked with
  | case1 marked => rw [hnew] at hq; cases hq
  | case2 p stack marked hp ih =>
    by_cases hqp : q = p
    · subst hqp
      exact search_stack (List.mem_append_left _ h.1) h.2
    · exact ih hq (by simp [hqp, hnew])
  | case3 p stack marked hp ih => exact ih hq hnew

/-! ## Reached states -/

/-- A state that the search marks was marked before, or is reached from the stack. -/
theorem reached_of_search {stack : List Nat} {marked : StateSet} {r : Nat}
    (h : (search next bound stack marked).contains r = true) :
    marked.contains r = true ∨
      ∃ q ∈ stack, q < bound ∧ Relation.ReflTransGen (Leads next bound) q r := by
  fun_induction search next bound stack marked with
  | case1 marked => exact Or.inl h
  | case2 p stack marked hp ih =>
    rcases ih h with hm | ⟨q, hq, hb, hqr⟩
    · rw [StateSet.contains_insert, Bool.or_eq_true, decide_eq_true_iff] at hm
      rcases hm with rfl | hm
      · exact Or.inr ⟨r, List.mem_cons_self, hp.1, .refl⟩
      · exact Or.inl hm
    · rcases List.mem_append.mp hq with hq | hq
      · exact Or.inr ⟨p, List.mem_cons_self, hp.1, .head ⟨hq, hb⟩ hqr⟩
      · exact Or.inr ⟨q, List.mem_cons_of_mem _ hq, hb, hqr⟩
  | case3 p stack marked hp ih =>
    rcases ih h with hm | ⟨q, hq, hb, hqr⟩
    · exact Or.inl hm
    · exact Or.inr ⟨q, List.mem_cons_of_mem _ hq, hb, hqr⟩

/-- **A search that starts with nothing marked finds the states that its stack leads to.** -/
theorem contains_search {stack : List Nat} {n r : Nat} :
    (search next bound stack (StateSet.withCapacity n)).contains r = true ↔
      ∃ q ∈ stack, q < bound ∧ Relation.ReflTransGen (Leads next bound) q r := by
  constructor
  · intro h
    rcases reached_of_search h with hm | hr
    · simp at hm
    · exact hr
  · rintro ⟨q, hq, hb, hqr⟩
    induction hqr with
    | refl => exact search_stack hq hb
    | tail _ hlead ih => exact search_closed ih (by simp) hlead

/-- The search marks no state at or above the bound. -/
theorem lt_of_contains_search {stack : List Nat} {n r : Nat}
    (h : (search next bound stack (StateSet.withCapacity n)).contains r = true) : r < bound := by
  obtain ⟨q, -, hb, hqr⟩ := contains_search.mp h
  cases hqr with
  | refl => exact hb
  | tail _ hlead => exact hlead.2

namespace Automaton

/-! ## Closures -/

/-- One ε move between states that exist. -/
abbrev EpsilonLeads (m : Automaton) : Nat → Nat → Prop :=
  Leads (m.successors .epsilon) m.numStates

/-- **The closure of a list of states holds what ε moves reach from its states that exist.** -/
theorem contains_closureFrom {m : Automaton} {states : List Nat} {r : Nat} :
    (m.closureFrom states).contains r = true ↔
      ∃ q ∈ states, q < m.numStates ∧ Relation.ReflTransGen m.EpsilonLeads q r :=
  contains_search

/-- A closure holds only states that exist. -/
theorem lt_of_contains_closureFrom {m : Automaton} {states : List Nat} {r : Nat}
    (h : (m.closureFrom states).contains r = true) : r < m.numStates :=
  lt_of_contains_search h

/-- The closure of no states is empty. -/
theorem toList_closureFrom_nil (m : Automaton) : (m.closureFrom []).toList = [] := by
  simp [closureFrom, search]

end Automaton

end RegularLanguages
