import Mathlib.Data.List.Forall2
import Mathlib.Data.List.Nodup

/-!
# Rows

Facts about rows of anything: where an element stands in a row, two rows side by side, a row of
computations that can each give nothing, and a change at one place.
-/

namespace RegularLanguages

/-! ## Places -/

section Places

variable {α : Type}

theorem nodup_eraseDups [BEq α] [LawfulBEq α] (l : List α) : l.eraseDups.Nodup := by
  induction hn : l.length using Nat.strongRecOn generalizing l with
  | ind n ih =>
    cases l with
    | nil => exact List.nodup_nil
    | cons a rest =>
      rw [List.eraseDups_cons, List.nodup_cons]
      have hshorter : (rest.filter fun b => !b == a).length < n := by
        have := List.length_filter_le (fun b => !b == a) rest
        rw [List.length_cons] at hn
        omega
      exact ⟨by simp, ih _ hshorter _ rfl⟩

variable [DecidableEq α] {l : List α} {a : α} {k : Nat}

/-- In a row without repetitions, an element stands at its first place. -/
theorem getElem?_eq_some_iff_idxOf (hl : l.Nodup) : l[k]? = some a ↔ a ∈ l ∧ k = l.idxOf a := by
  constructor
  · intro h
    obtain ⟨hk, rfl⟩ := List.getElem?_eq_some_iff.mp h
    exact ⟨List.getElem_mem hk, (hl.idxOf_getElem k hk).symm⟩
  · rintro ⟨hmem, rfl⟩
    exact List.getElem?_idxOf hmem

theorem idxOf?_of_mem (h : a ∈ l) : l.idxOf? a = some (l.idxOf a) := by
  rw [List.idxOf_eq_getD_idxOf?]
  cases ha : l.idxOf? a with
  | none => exact absurd h (List.idxOf?_eq_none_iff.mp ha)
  | some i => rfl

theorem getElem?_of_idxOf? (h : l.idxOf? a = some k) : l[k]? = some a := by
  obtain ⟨hlt, heq, -⟩ := List.idxOf?_eq_some_iff.mp h
  exact List.getElem?_eq_some_iff.mpr ⟨hlt, heq⟩

end Places

/-! ## Two rows side by side -/

section SideBySide

variable {α β γ : Type} {R : α → β → Prop} {as : List α} {bs : List β}

theorem exists_of_forall₂_of_mem (h : List.Forall₂ R as bs) {a : α} (ha : a ∈ as) :
    ∃ b ∈ bs, R a b := by
  induction h with
  | nil => cases ha
  | cons hhead _ ih =>
    rcases List.mem_cons.mp ha with rfl | ha
    · exact ⟨_, List.mem_cons_self, hhead⟩
    · obtain ⟨b, hb, hr⟩ := ih ha
      exact ⟨b, List.mem_cons_of_mem _ hb, hr⟩

theorem exists_of_forall₂_append_cons {before after : List α} {a : α}
    (h : List.Forall₂ R (before ++ a :: after) bs) :
    ∃ before' b after', bs = before' ++ b :: after' ∧ List.Forall₂ R before before' ∧ R a b ∧
      List.Forall₂ R after after' := by
  induction before generalizing bs with
  | nil =>
    cases h with
    | cons hhead hrest => exact ⟨[], _, _, rfl, .nil, hhead, hrest⟩
  | cons first before ih =>
    cases h with
    | cons hhead hrest =>
      obtain ⟨before', b, after', rfl, hbefore, hb, hafter⟩ := ih hrest
      exact ⟨_ :: before', b, after', rfl, .cons hhead hbefore, hb, hafter⟩

/-- Two rows that are related to a third one are related to each other, if their places are. -/
theorem forall₂_of_forall₂ {S : α → γ → Prop} {T : β → γ → Prop} {cs : List γ}
    (hR : List.Forall₂ R as bs) (hS : List.Forall₂ S as cs)
    (h : ∀ c ∈ cs, ∀ a b, R a b → S a c → T b c) : List.Forall₂ T bs cs := by
  induction hR generalizing cs with
  | nil =>
    cases hS
    exact .nil
  | cons hab _ ih =>
    cases hS with
    | cons hac hrest =>
      obtain ⟨hhead, htail⟩ := List.forall_mem_cons.mp h
      exact .cons (hhead _ _ hab hac) (ih hrest htail)

/-- Nothing is dropped if every element gives something. -/
theorem forall₂_filterMap {f : α → Option β} (h : ∀ a ∈ as, ∃ b, f a = some b ∧ R a b) :
    List.Forall₂ R as (as.filterMap f) := by
  induction as with
  | nil => exact .nil
  | cons a rest ih =>
    obtain ⟨⟨b, hb, hab⟩, hrest⟩ := List.forall_mem_cons.mp h
    rw [List.filterMap_cons_some hb]
    exact .cons hab (ih hrest)

end SideBySide

/-! ## Computations that can give nothing -/

section Computations

variable {α β : Type}

/-- If all computations of a row give a result, so does the row. -/
theorem mapM_eq_some_map {f : α → Option β} {g : α → β} {l : List α}
    (h : ∀ a ∈ l, f a = some (g a)) : l.mapM f = some (l.map g) := by
  induction l with
  | nil => rfl
  | cons a l ih =>
    obtain ⟨ha, hl⟩ := List.forall_mem_cons.mp h
    rw [List.mapM_cons, ha, ih hl]
    rfl

/-- If each element comes back, so does the row. -/
theorem mapM_map_eq_some {f : β → Option α} {g : α → β} (h : ∀ a, f (g a) = some a) (l : List α) :
    (l.map g).mapM f = some l := by
  have hback : ∀ a ∈ l, (f ∘ g) a = some (id a) := fun a _ => h a
  rw [List.mapM_map, mapM_eq_some_map hback, List.map_id]

end Computations

/-! ## A change at one place -/

section Change

variable {α β : Type} {f : α → α}

theorem forall_mem_modify {P : α → Prop} {l : List α} (i : Nat) (h : ∀ a ∈ l, P a)
    (hf : ∀ a, P a → P (f a)) : ∀ a ∈ l.modify i f, P a := by
  induction l generalizing i with
  | nil => simp
  | cons a rest ih =>
    obtain ⟨ha, hrest⟩ := List.forall_mem_cons.mp h
    cases i with
    | zero => exact List.forall_mem_cons.mpr ⟨hf a ha, hrest⟩
    | succ i => exact List.forall_mem_cons.mpr ⟨ha, ih i hrest⟩

theorem map_modify {g : α → β} (f' : β → β) (h : ∀ a, g (f a) = f' (g a)) (l : List α) (i : Nat) :
    (l.modify i f).map g = (l.map g).modify i f' := by
  induction l generalizing i with
  | nil => simp
  | cons a rest ih =>
    cases i with
    | zero => exact congrArg (· :: rest.map g) (h a)
    | succ i => exact congrArg (g a :: ·) (ih i)

end Change

end RegularLanguages
