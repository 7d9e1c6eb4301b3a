import Mathlib.Logic.Relation
import RegularLanguages.Automaton.Lemmas

/-!
# Recorded and waiting states

A search through an automaton records states, and keeps a list of states that wait, some of them
several times. In each turn it takes the first one off the list. If this state is recorded already,
nothing else happens. Otherwise it is recorded, and the states that it moves to join those that wait,
unless they are recorded. At which end of the list they join does not matter here.

`Frontier` is the invariant: what is recorded or waits is reached, and a move from a recorded state
leads to a state that is recorded or waits. When nothing waits any more, the recorded states are
closed under moves, so they are all that is reached (`Frontier.contains_iff`).

Each transition that is followed is looked at once, when its source is recorded, and lets at most one
state join. So the states that wait and the transitions that were not looked at yet bound the number
of turns that are left (`add_unexplored_le`).
-/

namespace RegularLanguages.Automaton

variable {m : Automaton} {found : StateSet} {q : Nat}

/-! ## Transitions that were not looked at -/

/-- The number of transitions from states that are not recorded. -/
def unexplored (steps : List Transition) (found : StateSet) : Nat :=
  steps.countP fun t => !found.contains t.1

section Unexplored

variable {steps : List Transition}

theorem unexplored_le (steps : List Transition) (found : StateSet) :
    unexplored steps found ≤ steps.length := List.countP_le_length

/-- When a state is recorded, the transitions from it are no longer unexplored. -/
theorem unexplored_insert (steps : List Transition) (hnew : found.contains q = false) :
    unexplored steps found = steps.countP (·.1 = q) + unexplored steps (found.insert q) := by
  rw [unexplored, List.countP_eq_countP_filter_add _ _ (fun t => decide (t.1 = q)),
    List.countP_filter, List.countP_filter, unexplored]
  congr 1
  · refine List.countP_congr fun t _ => ?_
    by_cases ht : t.1 = q <;> simp [ht, hnew]
  · refine List.countP_congr fun t _ => ?_
    by_cases ht : t.1 = q <;> simp [ht]

theorem unexplored_insert_le (steps : List Transition) (found : StateSet) (q : Nat) :
    unexplored steps (found.insert q) ≤ unexplored steps found := by
  refine List.countP_mono_left fun t _ ht => ?_
  rw [StateSet.contains_insert, Bool.not_or, Bool.and_eq_true] at ht
  exact ht.2

/-- **A turn that records a state makes no more work.** For each state that joins, a transition is
no longer unexplored. -/
theorem add_unexplored_le {before after : Nat} (hnew : found.contains q = false)
    (hjoined : after ≤ before + steps.countP (·.1 = q)) :
    after + unexplored steps (found.insert q) ≤ before + unexplored steps found := by
  have hsplit := unexplored_insert steps hnew
  omega

end Unexplored

/-- The edges of a state that are followed are among the transitions that are followed. -/
theorem countP_edgesFrom_le (follows : Label → Bool) (hq : q < m.numStates) :
    (m.edgesFrom q).countP (fun e => follows e.label) ≤
      (m.transitions.filter fun t => follows t.2.1).countP (·.1 = q) := by
  have hsub : ((m.edgesFrom q).map fun e => (q, e.label, e.target)).Sublist m.transitions :=
    List.sublist_flatten_of_mem (List.mem_map_of_mem (List.mem_range.mpr hq))
  calc (m.edgesFrom q).countP (fun e => follows e.label)
      = (((m.edgesFrom q).map fun e => (q, e.label, e.target)).filter
          fun t => follows t.2.1).countP (·.1 = q) := by
        rw [List.countP_filter, List.countP_map]
        exact List.countP_congr fun e _ => by simp
    _ ≤ (m.transitions.filter fun t => follows t.2.1).countP (·.1 = q) :=
        (hsub.filter _).countP_le

/-! ## The invariant -/

/-- What is known before a turn of a search that began with one waiting state. -/
structure Frontier (move : Nat → Nat → Prop) (start : Nat) (found : StateSet)
    (waiting : List Nat) : Prop where
  of_recorded : ∀ q, found.contains q = true → Relation.ReflTransGen move start q
  of_waiting : ∀ q ∈ waiting, Relation.ReflTransGen move start q
  start_met : found.contains start = true ∨ start ∈ waiting
  moves_met : ∀ q r, found.contains q = true → move q r → found.contains r = true ∨ r ∈ waiting

namespace Frontier

variable {move : Nat → Nat → Prop} {start r : Nat} {waiting waiting' : List Nat}

theorem first (move : Nat → Nat → Prop) (start n : Nat) :
    Frontier move start (StateSet.withCapacity n) [start] where
  of_recorded q hq := by simp at hq
  of_waiting q hq := by rw [List.mem_singleton.mp hq]
  start_met := Or.inr (List.mem_singleton_self start)
  moves_met q r hq := by simp at hq

/-- A state that is taken off the list and recorded, or was recorded before, is still met. -/
theorem met_of_met (hkept : ∀ p ∈ waiting, p ∈ waiting')
    (h : found.contains r = true ∨ r ∈ q :: waiting) :
    (found.insert q).contains r = true ∨ r ∈ waiting' := by
  rw [StateSet.contains_insert_iff]
  rcases h with h | h
  · exact Or.inl (Or.inr h)
  · rcases List.mem_cons.mp h with h | h
    · exact Or.inl (Or.inl h)
    · exact Or.inr (hkept r h)

/-- A turn whose state is recorded already. -/
theorem skip (h : Frontier move start found (q :: waiting)) (hold : found.contains q = true) :
    Frontier move start (found.insert q) waiting := by
  have hsame : ∀ p, (found.insert q).contains p = true → found.contains p = true :=
    StateSet.forall_contains_insert.mpr ⟨hold, fun _ => id⟩
  exact ⟨fun p hp => h.of_recorded p (hsame p hp),
    fun p hp => h.of_waiting p (List.mem_cons_of_mem q hp),
    met_of_met (fun _ => id) h.start_met,
    fun p r hp hmove => met_of_met (fun _ => id) (h.moves_met p r (hsame p hp) hmove)⟩

/-- A turn that records its state. Each move from this state leads to a recorded state, or lets its
target join those that wait. -/
theorem enter (h : Frontier move start found (q :: waiting))
    (hjoined : ∀ r, r ∈ waiting' ↔
      r ∈ waiting ∨ move q r ∧ (found.insert q).contains r = false) :
    Frontier move start (found.insert q) waiting' := by
  have hreached : Relation.ReflTransGen move start q := h.of_waiting q List.mem_cons_self
  have hkept : ∀ p ∈ waiting, p ∈ waiting' := fun p hp => (hjoined p).mpr (Or.inl hp)
  refine ⟨StateSet.forall_contains_insert.mpr ⟨hreached, h.of_recorded⟩, fun p hp => ?_,
    met_of_met hkept h.start_met, fun p r hp hmove => ?_⟩
  · rcases (hjoined p).mp hp with hp | ⟨hmove, -⟩
    · exact h.of_waiting p (List.mem_cons_of_mem q hp)
    · exact hreached.tail hmove
  · rcases StateSet.contains_insert_iff.mp hp with rfl | hp
    · cases hr : (found.insert p).contains r with
      | true => exact Or.inl rfl
      | false => exact Or.inr ((hjoined r).mpr (Or.inr ⟨hmove, hr⟩))
    · exact met_of_met hkept (h.moves_met p r hp hmove)

/-- **When nothing waits, the recorded states are those that are reached.** -/
theorem contains_iff (h : Frontier move start found []) :
    found.contains r = true ↔ Relation.ReflTransGen move start r := by
  refine ⟨h.of_recorded r, fun hreach => ?_⟩
  -- nothing waits, so the recorded states are closed under moves
  induction hreach with
  | refl => simpa using h.start_met
  | tail _ hmove ih => simpa using h.moves_met _ _ ih hmove

end Frontier

end RegularLanguages.Automaton
