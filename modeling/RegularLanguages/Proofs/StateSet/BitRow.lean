import RegularLanguages.Proofs.StateSet
import RegularLanguages.StateSet.Program

/-!
# Sets over rows of bits

`BitRow.Lawful` says what each operation on rows does to the bits, as far as the sets over rows rely
on it: a row that grows gets no new bit, a bit is set within the row only, and rows are joined into
one that is as long as the other or longer.

`SetOperations.Lawful` says what operations on sets do to the members. The sets over lawful rows have
it (`BitRow.Lawful.operations`), whichever row is the longer one, and so have the sets of this
library (`StateSet.lawful_operations`).
-/

namespace RegularLanguages

/-! ## Laws -/

/-- What the operations on rows do to the bits. -/
structure BitRow.Lawful {β : Type} (v : BitRow β) : Prop where
  get_withCapacity : ∀ n i, v.get (v.withCapacity n) i = false
  get_of_size_le : ∀ b i, v.size b ≤ i → v.get b i = false
  size_grow : ∀ b n, v.size b ≤ n → v.size (v.grow b n) = n
  get_grow : ∀ b n, v.size b ≤ n → ∀ i, v.get (v.grow b n) i = v.get b i
  exists_put? : ∀ b i, i < v.size b → ∃ b', v.put? b i = some (v.get b i, b') ∧
    ∀ j, v.get b' j = (decide (j = i) || v.get b j)
  get_join : ∀ b c, v.size c ≤ v.size b → ∀ i, v.get (v.join b c) i = (v.get b i || v.get c i)
  isDisjoint_iff : ∀ b c, v.isDisjoint b c = true ↔ ∀ i, v.get b i = true → v.get c i = false
  isClear_iff : ∀ b, v.isClear b = true ↔ ∀ i < v.size b, v.get b i = false
  countOnes_eq : ∀ b, v.countOnes b = (List.range (v.size b)).countP (v.get b)
  ones_eq : ∀ b, v.ones b = (List.range (v.size b)).filter (v.get b)

/-- What the operations on sets do to the members. -/
structure SetOperations.Lawful {α : Type} (k : SetOperations α) : Prop where
  contains_withCapacity : ∀ n r, k.contains (k.withCapacity n) r = false
  exists_singleton? : ∀ q n, ∃ s, k.singleton? q n = some s ∧ ∀ r, k.contains s r = decide (r = q)
  exists_ofList? : ∀ qs, ∃ s, k.ofList? qs = some s ∧ ∀ r, k.contains s r = decide (r ∈ qs)
  exists_insert? : ∀ s q, ∃ s', k.insert? s q = some (!k.contains s q, s') ∧
    ∀ r, k.contains s' r = (decide (r = q) || k.contains s r)
  contains_union : ∀ s t r, k.contains (k.union s t) r = (k.contains s r || k.contains t r)
  size_eq : ∀ s, k.size s = (k.toList s).length
  isEmpty_iff : ∀ s, k.isEmpty s = true ↔ ∀ r, k.contains s r = false
  mem_toList : ∀ s r, r ∈ k.toList s ↔ k.contains s r = true
  pairwise_toList : ∀ s, (k.toList s).Pairwise (· < ·)
  intersects_iff : ∀ s t, k.intersects s t = true ↔
    ∃ r, k.contains s r = true ∧ k.contains t r = true
  equal_iff : ∀ s t, k.equal s t = true ↔ k.toList s = k.toList t

/-! ## Rows of bits -/

namespace BitRow

theorem getD_of_size_le {b : Array Bool} {i : Nat} (h : b.size ≤ i) : b.getD i false = false := by
  rw [Array.getD_eq_getD_getElem?, Array.getElem?_eq_none h]
  rfl

theorem lawful_arrays : arrays.Lawful where
  get_withCapacity n i := by
    simp only [arrays, Array.getD_eq_getD_getElem?, Array.getElem?_replicate]
    split <;> rfl
  get_of_size_le b i h := getD_of_size_le h
  size_grow b n h := by
    have : b.size ≤ n := h
    simp only [arrays, Array.size_append, Array.size_replicate]
    omega
  get_grow b n _ i := by
    simp only [arrays, Array.getD_eq_getD_getElem?, Array.getElem?_append]
    split
    · rfl
    · next hi =>
      rw [Array.getElem?_eq_none (Nat.not_lt.mp hi), Array.getElem?_replicate]
      split <;> rfl
  exists_put? b i h := by
    have hi : i < b.size := h
    refine ⟨b.setIfInBounds i true, if_pos h, fun j => ?_⟩
    simp only [arrays, Array.getD_eq_getD_getElem?, Array.getElem?_setIfInBounds]
    by_cases hj : i = j
    · subst hj
      simp [hi]
    · simp [hj, Ne.symm hj]
  get_join b c _ i := by
    simp only [arrays, Array.getD_eq_getD_getElem?, Array.getElem?_ofFn]
    split
    · rfl
    · next hi =>
      have hb : b.size ≤ i := by omega
      have hc : c.size ≤ i := by omega
      rw [Array.getElem?_eq_none hb, Array.getElem?_eq_none hc]
      rfl
  isDisjoint_iff b c := by
    simp only [arrays, List.all_eq_true, List.mem_range, Bool.not_eq_true', Bool.and_eq_false_imp]
    refine ⟨fun h i hi => ?_, fun h i _ => h i⟩
    refine h i (Nat.lt_of_not_le fun hle => ?_) hi
    rw [getD_of_size_le hle] at hi
    cases hi
  isClear_iff b := by
    simp only [arrays, Array.all_eq_true, Bool.not_eq_true']
    refine forall_congr' fun i => forall_congr' fun hi => ?_
    rw [Array.getD_eq_getD_getElem?, Array.getElem?_eq_getElem hi, Option.getD_some]
  countOnes_eq b := rfl
  ones_eq b := rfl

namespace Lawful

variable {β : Type} {v : BitRow β} (hv : v.Lawful)
include hv

/-- An insertion tells whether the state was absent and adds nothing else. The row has room for the
state when its bit is set, so setting it does not fail. -/
theorem exists_insert? (s : β) (q : Nat) :
    ∃ s', v.insert? s q = some (!v.get s q, s') ∧
      ∀ r, v.get s' r = (decide (r = q) || v.get s r) := by
  have hroom : ∃ b, (if v.size s ≤ q then v.grow s (q + 1) else s) = b ∧ q < v.size b ∧
      ∀ r, v.get b r = v.get s r := by
    by_cases hq : v.size s ≤ q
    · rw [if_pos hq]
      have hle := Nat.le_succ_of_le hq
      exact ⟨_, rfl, (hv.size_grow s (q + 1) hle).symm ▸ Nat.lt_succ_self q, hv.get_grow s _ hle⟩
    · rw [if_neg hq]
      exact ⟨s, rfl, Nat.lt_of_not_le hq, fun _ => rfl⟩
  obtain ⟨b, hb, hlt, hget⟩ := hroom
  obtain ⟨s', hput, hmem⟩ := hv.exists_put? b q hlt
  refine ⟨s', ?_, fun r => by rw [hmem, hget]⟩
  rw [insert?, hb, hput, hget]
  rfl

theorem exists_singleton? (q n : Nat) :
    ∃ s, v.singleton? q n = some s ∧ ∀ r, v.get s r = decide (r = q) := by
  obtain ⟨s, hs, hmem⟩ := hv.exists_insert? (v.withCapacity n) q
  refine ⟨s, by rw [singleton?, hs, Option.map_some], fun r => ?_⟩
  rw [hmem, hv.get_withCapacity, Bool.or_false]

theorem exists_foldlM_insert? (qs : List Nat) (first : β) :
    ∃ s, qs.foldlM (fun s q => (v.insert? s q).map Prod.snd) first = some s ∧
      ∀ r, v.get s r = (decide (r ∈ qs) || v.get first r) := by
  induction qs generalizing first with
  | nil => exact ⟨first, rfl, fun r => by simp⟩
  | cons q rest ih =>
    obtain ⟨next, hnext, hget⟩ := hv.exists_insert? first q
    obtain ⟨s, hs, hmem⟩ := ih next
    refine ⟨s, ?_, fun r => ?_⟩
    · rw [List.foldlM_cons, hnext]
      exact hs
    · rw [hmem, hget, ← Bool.or_assoc]
      simp [Bool.or_comm]

theorem exists_ofList? (qs : List Nat) :
    ∃ s, v.ofList? qs = some s ∧ ∀ r, v.get s r = decide (r ∈ qs) := by
  obtain ⟨s, hs, hmem⟩ := hv.exists_foldlM_insert? qs (v.withCapacity 0)
  exact ⟨s, hs, fun r => by rw [hmem, hv.get_withCapacity, Bool.or_false]⟩

/-- A union has the members of both sets, whichever row is the longer one. -/
theorem get_union (s t : β) (r : Nat) : v.get (v.union s t) r = (v.get s r || v.get t r) := by
  unfold union
  by_cases h : v.size s < v.size t
  · have hle := Nat.le_of_lt h
    rw [if_pos h, hv.get_join _ _ (Nat.le_of_eq (hv.size_grow s _ hle).symm), hv.get_grow s _ hle]
  · rw [if_neg h, hv.get_join _ _ (Nat.le_of_not_lt h)]

theorem mem_ones {s : β} {r : Nat} : r ∈ v.ones s ↔ v.get s r = true := by
  rw [hv.ones_eq, List.mem_filter, List.mem_range, and_iff_right_iff_imp]
  refine fun h => Nat.lt_of_not_le fun hle => ?_
  rw [hv.get_of_size_le s r hle] at h
  cases h

/-- **The sets over lawful rows are lawful.** -/
theorem operations : v.operations.Lawful where
  contains_withCapacity := hv.get_withCapacity
  exists_singleton? := hv.exists_singleton?
  exists_ofList? := hv.exists_ofList?
  exists_insert? := hv.exists_insert?
  contains_union := hv.get_union
  size_eq s := by
    simp only [BitRow.operations, hv.countOnes_eq, hv.ones_eq, List.countP_eq_length_filter]
  isEmpty_iff s := by
    refine (hv.isClear_iff s).trans ⟨fun h r => ?_, fun h r _ => h r⟩
    rcases Nat.lt_or_ge r (v.size s) with hr | hr
    · exact h r hr
    · exact hv.get_of_size_le s r hr
  mem_toList _ _ := hv.mem_ones
  pairwise_toList s := by
    simp only [BitRow.operations, hv.ones_eq]
    exact List.pairwise_lt_range.filter _
  intersects_iff s t := by
    simp only [BitRow.operations, Bool.not_eq_true', ← Bool.not_eq_true, hv.isDisjoint_iff]
    simp
  equal_iff _ _ := beq_iff_eq

end Lawful

end BitRow

/-! ## The sets of this library -/

/-- **The sets of this library are lawful.** -/
theorem StateSet.lawful_operations : StateSet.operations.Lawful where
  contains_withCapacity := contains_withCapacity
  exists_singleton? q n := ⟨_, rfl, fun r => by simp [operations, StateSet.singleton]⟩
  exists_ofList? qs := ⟨_, rfl, contains_ofList qs⟩
  exists_insert? s q := ⟨_, rfl, contains_insert s q⟩
  contains_union s t r := (contains_union s t r).trans (Bool.or_comm _ _)
  size_eq _ := rfl
  isEmpty_iff _ := isEmpty_iff.trans toList_eq_nil
  mem_toList _ _ := mem_toList
  pairwise_toList := pairwise_toList
  intersects_iff _ _ := intersects_iff
  equal_iff s t := beq_iff_eq (a := s.toList) (b := t.toList)

end RegularLanguages
