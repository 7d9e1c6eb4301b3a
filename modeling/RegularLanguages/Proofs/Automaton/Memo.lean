import RegularLanguages.Automaton.Memo
import RegularLanguages.Proofs.Automaton.Reading

/-!
# Answers from the table of closures

A table with the closure of every state answers as if each closure were searched for anew. The union
of the entries for some states has the members of their common closure (`toList_closureIn`), and
everything else only looks at members.
-/

namespace RegularLanguages.Memo

variable {m : Automaton}

/-! ## Closures -/

theorem getD_closuresOf {q : Nat} (hq : q < m.numStates) :
    (closuresOf m).getD q ∅ = m.closureOf q := by
  simp [closuresOf, Array.getD_eq_getD_getElem?, hq]

theorem getD_closuresOf_of_le {q : Nat} (hq : m.numStates ≤ q) : (closuresOf m).getD q ∅ = ∅ := by
  have hnone : (closuresOf m)[q]? = none := by simp [closuresOf, hq]
  rw [Array.getD_eq_getD_getElem?, hnone]
  rfl

theorem contains_foldl_union {table : Array StateSet} {states : List Nat} {found : StateSet}
    {r : Nat} :
    (states.foldl (fun found q => found.union (table.getD q ∅)) found).contains r = true ↔
      found.contains r = true ∨ ∃ q ∈ states, (table.getD q ∅).contains r = true := by
  induction states generalizing found with
  | nil => simp
  | cons q rest ih =>
    rw [List.foldl_cons, ih, StateSet.contains_union, Bool.or_eq_true, List.exists_mem_cons_iff,
      or_comm (b := found.contains r = true), or_assoc]

/-- **The table gives the closure of every list of states**, the states that do not exist left out. -/
theorem toList_closureIn (m : Automaton) (states : List Nat) :
    (closureIn m (closuresOf m) states).toList = (m.closureFrom states).toList := by
  refine StateSet.toList_congr fun r => Bool.eq_iff_iff.mpr ?_
  rw [closureIn, contains_foldl_union, StateSet.contains_withCapacity,
    Automaton.contains_closureFrom]
  constructor
  · rintro (h | ⟨q, hq, h⟩)
    · cases h
    · rcases Nat.lt_or_ge q m.numStates with hlt | hge
      · rw [getD_closuresOf hlt, Automaton.closureOf, Automaton.contains_closureFrom] at h
        obtain ⟨p, hp, -, hreach⟩ := h
        obtain rfl := List.mem_singleton.mp hp
        exact ⟨p, hq, hlt, hreach⟩
      · rw [getD_closuresOf_of_le hge, StateSet.contains_empty] at h
        cases h
  · rintro ⟨q, hq, hlt, hreach⟩
    refine Or.inr ⟨q, hq, ?_⟩
    rw [getD_closuresOf hlt, Automaton.closureOf, Automaton.contains_closureFrom]
    exact ⟨q, List.mem_singleton_self q, hlt, hreach⟩

/-! ## Reading -/

theorem toList_stepIn {s t : StateSet} (h : s.toList = t.toList) (id : Nat) :
    (stepIn m (closuresOf m) s id).toList = (m.step t id).toList := by
  rw [stepIn, toList_closureIn, Automaton.targets, h]
  rfl

theorem toList_foldl_stepIn (ids : List Nat) {s t : StateSet} (h : s.toList = t.toList) :
    (ids.foldl (stepIn m (closuresOf m)) s).toList = (ids.foldl m.step t).toList := by
  induction ids generalizing s t with
  | nil => exact h
  | cons id rest ih => exact ih (toList_stepIn h id)

theorem acceptsSymbolsIn_closuresOf (m : Automaton) (ids : List Nat) :
    acceptsSymbolsIn m (closuresOf m) ids = m.acceptsSymbols ids := by
  have hdead : ∀ s id, s.toList = [] → (stepIn m (closuresOf m) s id).toList = [] :=
    fun s id h => (toList_stepIn rfl id).trans (Automaton.toList_step_of_nil h id)
  rw [acceptsSymbolsIn, Automaton.acceptsFrom_eq hdead, Automaton.acceptsSymbols_eq]
  exact Automaton.acceptsAny_congr (toList_foldl_stepIn ids (toList_closureIn m [m.start]))

variable {memo : Memo}

theorem acceptsSymbols_fst (h : memo.closures = closuresOf memo.automaton) (ids : List Nat) :
    (memo.acceptsSymbols ids).1 = memo.automaton.acceptsSymbols ids := by
  rw [acceptsSymbols, ask, h, acceptsSymbolsIn_closuresOf]

/-- **With the table of closures the same words are accepted.** -/
theorem accepts_fst (h : memo.closures = closuresOf memo.automaton) (word : String) :
    (memo.accepts word).1 = memo.automaton.accepts word := by
  unfold accepts Automaton.accepts
  cases memo.automaton.alphabet.encode? word with
  | some ids => exact acceptsSymbols_fst h ids
  | none => rfl

end RegularLanguages.Memo
