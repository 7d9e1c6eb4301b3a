import Mathlib.Data.Finset.Basic
import Mathlib.Data.List.Sort
import RegularLanguages.StateSet

/-!
# State sets are sets

The row of bits behind a state set is never observed. A set is its members: the list of members, the
test for emptiness and the test for a common member can all be read off `contains`.
-/

namespace RegularLanguages.StateSet

/-! ## The list of members -/

/-- **Sets with the same members have the same list of members**, however long their rows are. -/
theorem toList_congr {s t : StateSet} (h : ∀ q, s.contains q = t.contains q) :
    s.toList = t.toList := by
  refine s.pairwise_toList.eq_of_mem_iff t.pairwise_toList fun q => ?_
  rw [mem_toList, mem_toList, h q]

theorem toList_eq_of_toFinset {s t : StateSet} (h : s.toList.toFinset = t.toList.toFinset) :
    s.toList = t.toList := by
  refine s.pairwise_toList.eq_of_mem_iff t.pairwise_toList fun q => ?_
  rw [← List.mem_toFinset, ← List.mem_toFinset, h]

/-- A strictly increasing list is the list of members of its set. -/
theorem toList_ofList {qs : List Nat} (h : qs.Pairwise (· < ·)) : (ofList qs).toList = qs := by
  refine (ofList qs).pairwise_toList.eq_of_mem_iff h fun q => ?_
  rw [mem_toList, contains_ofList, decide_eq_true_iff]

/-- A set without members has an empty list of members. -/
theorem toList_eq_nil {s : StateSet} : s.toList = [] ↔ ∀ q, s.contains q = false := by
  rw [List.eq_nil_iff_forall_not_mem]
  simp

@[simp] theorem toList_empty : (∅ : StateSet).toList = [] := toList_eq_nil.mpr contains_empty

@[simp] theorem toList_withCapacity (n : Nat) : (withCapacity n).toList = [] :=
  toList_eq_nil.mpr (contains_withCapacity n)

/-! ## Tests -/

/-- The test for emptiness looks at every bit, so it finds every member. -/
theorem isEmpty_iff {s : StateSet} : s.isEmpty = true ↔ s.toList = [] := by
  rw [toList_eq_nil, isEmpty, Array.all_eq_true]
  constructor
  · intro h q
    unfold contains
    split
    · next hq => simpa using h q hq
    · rfl
  · intro h q hq
    have := h q
    rw [contains, dif_pos hq] at this
    simp [this]

/-- Two sets intersect if and only if they share a member. -/
theorem intersects_iff {s t : StateSet} :
    s.intersects t = true ↔ ∃ q, s.contains q = true ∧ t.contains q = true := by
  simp [intersects]

end RegularLanguages.StateSet
