import Mathlib.Data.List.Nodup
import Mathlib.Data.Finset.Card
import RegularLanguages.Proofs.Grammar.Derivation

/-!
# Nullable nonterminals

The passes over the productions find exactly the nonterminals that derive the empty word. What is
found has a tree without leaves, because each addition builds one from trees that are there. For the
converse, the list of known nonterminals must be closed under the productions.

A pass that adds nothing finds the list closed. A pass that adds something makes it longer, and
there are only so many nonterminals. So after as many passes as there are nonterminals the list is
closed: either some pass added nothing, or the list holds all of them.
-/

namespace RegularLanguages.Grammar

variable {productions : List Production} {known : List Nat} {count : Nat}

/-- All nonterminals of the productions are below the count. -/
def Bounded (productions : List Production) (count : Nat) : Prop :=
  ∀ p ∈ productions, p.lhs < count ∧ ∀ id, .nonterminal id ∈ p.items → id < count

theorem isNullableIn_iff {item : Item} :
    item.isNullableIn known = true ↔ ∃ id ∈ known, item = .nonterminal id := by
  cases item with
  | terminal c => simp [Item.isNullableIn]
  | nonterminal id => simp [Item.isNullableIn]

theorem all_isNullableIn_iff {items : List Item} :
    items.all (Item.isNullableIn known) = true ↔
      ∀ item ∈ items, ∃ id ∈ known, item = .nonterminal id := by
  simp only [List.all_eq_true, isNullableIn_iff]

/-! ## One production, one pass -/

theorem addNullable_eq (known : List Nat) (p : Production) :
    (addNullable known p = known ∧
        (p.items.all (Item.isNullableIn known) = true → p.lhs ∈ known)) ∨
      (addNullable known p = p.lhs :: known ∧ p.lhs ∉ known ∧
        p.items.all (Item.isNullableIn known) = true) := by
  unfold addNullable
  split
  · next hmem => exact Or.inl ⟨rfl, fun _ => by simpa using hmem⟩
  · next hnot =>
    split
    · next hall => exact Or.inr ⟨rfl, by simpa using hnot, hall⟩
    · next hall => exact Or.inl ⟨rfl, fun h => absurd h hall⟩

/-- The known nonterminals are distinct, below the count, and derive the empty word. -/
structure Known (productions : List Production) (count : Nat) (known : List Nat) : Prop where
  nodup : known.Nodup
  lt : ∀ id ∈ known, id < count
  leafless : ∀ id ∈ known, ∃ t, Derives productions (.nonterminal id) t ∧ t.leaves = []

/-- A row of nullable items has a row of trees without leaves. -/
theorem Known.exists_children (h : Known productions count known) {items : List Item}
    (hitems : ∀ item ∈ items, ∃ id ∈ known, item = .nonterminal id) :
    ∃ children, List.Forall₂ (Derives productions) items children ∧
      children.flatMap ParseTree.leaves = [] := by
  induction items with
  | nil => exact ⟨[], .nil, rfl⟩
  | cons item rest ih =>
    obtain ⟨id, hid, rfl⟩ := hitems _ List.mem_cons_self
    obtain ⟨t, ht, hleaves⟩ := h.leafless id hid
    obtain ⟨children, hchildren, hempty⟩ :=
      ih fun item hitem => hitems item (List.mem_cons_of_mem _ hitem)
    exact ⟨t :: children, .cons ht hchildren, by rw [List.flatMap_cons, hleaves, hempty]; rfl⟩

theorem Known.addNullable (h : Known productions count known) (hb : Bounded productions count)
    {p : Production} (hp : p ∈ productions) : Known productions count (addNullable known p) := by
  rcases addNullable_eq known p with ⟨heq, -⟩ | ⟨heq, hnot, hall⟩
  · rw [heq]
    exact h
  · rw [heq]
    obtain ⟨children, hchildren, hempty⟩ := h.exists_children (all_isNullableIn_iff.mp hall)
    refine ⟨List.nodup_cons.mpr ⟨hnot, h.nodup⟩, fun id hid => ?_, fun id hid => ?_⟩
    · rcases List.mem_cons.mp hid with rfl | hid
      · exact (hb p hp).1
      · exact h.lt id hid
    · rcases List.mem_cons.mp hid with rfl | hid
      · exact ⟨_, .node hp hchildren, by rw [ParseTree.leaves_node, hempty]⟩
      · exact h.leafless id hid

theorem Known.foldl (h : Known productions count known) (hb : Bounded productions count)
    {ps : List Production} (hps : ∀ p ∈ ps, p ∈ productions) :
    Known productions count (ps.foldl Grammar.addNullable known) := by
  induction ps generalizing known with
  | nil => exact h
  | cons p rest ih =>
    exact ih (h.addNullable hb (hps p List.mem_cons_self))
      fun q hq => hps q (List.mem_cons_of_mem _ hq)

theorem known_nullableAfter (hb : Bounded productions count) (n : Nat) :
    Known productions count (nullableAfter productions n) := by
  induction n with
  | zero =>
    exact ⟨List.nodup_nil, fun _ h => absurd h List.not_mem_nil, fun _ h => absurd h List.not_mem_nil⟩
  | succ n ih => exact ih.foldl hb fun p hp => hp

/-! ## Closed lists -/

/-- The left side of every production with nullable items is known. -/
def NullableClosed (productions : List Production) (known : List Nat) : Prop :=
  ∀ p ∈ productions, p.items.all (Item.isNullableIn known) = true → p.lhs ∈ known

/-- A pass leaves a closed list alone, and makes any other list longer. -/
theorem nullablePass_eq (ps : List Production) (known : List Nat) :
    (nullablePass ps known = known ∧ NullableClosed ps known) ∨
      known.length < (nullablePass ps known).length := by
  induction ps generalizing known with
  | nil => exact Or.inl ⟨rfl, fun p hp => absurd hp List.not_mem_nil⟩
  | cons p rest ih =>
    rw [nullablePass, List.foldl_cons, ← nullablePass]
    rcases addNullable_eq known p with ⟨heq, hclosed⟩ | ⟨heq, -, -⟩
    · rw [heq]
      rcases ih known with ⟨hpass, hrest⟩ | hlonger
      · exact Or.inl ⟨hpass, List.forall_mem_cons.mpr ⟨hclosed, hrest⟩⟩
      · exact Or.inr hlonger
    · rw [heq]
      right
      rcases ih (p.lhs :: known) with ⟨hpass, -⟩ | hlonger
      · rw [hpass]
        exact Nat.lt_succ_self _
      · rw [List.length_cons] at hlonger
        omega

theorem nullablePass_of_closed {ps : List Production} (h : NullableClosed ps known) :
    nullablePass ps known = known := by
  induction ps with
  | nil => rfl
  | cons p rest ih =>
    obtain ⟨hp, hrest⟩ := List.forall_mem_cons.mp h
    rw [nullablePass, List.foldl_cons, ← nullablePass]
    rcases addNullable_eq known p with ⟨heq, -⟩ | ⟨-, hnot, hall⟩
    · rw [heq, ih hrest]
    · exact absurd (hp hall) hnot

/-- Every pass adds a nonterminal until the list is closed. -/
theorem closed_or_le_length (productions : List Production) (n : Nat) :
    NullableClosed productions (nullableAfter productions n) ∨
      n ≤ (nullableAfter productions n).length := by
  induction n with
  | zero => exact Or.inr (Nat.zero_le _)
  | succ n ih =>
    rw [nullableAfter]
    rcases ih with hclosed | hle
    · rw [nullablePass_of_closed hclosed]
      exact Or.inl hclosed
    · -- not closed so far: this pass finds the list closed, or makes it longer by one at least
      rcases nullablePass_eq productions (nullableAfter productions n) with ⟨hpass, hclosed⟩ | hlonger
      · rw [hpass]
        exact Or.inl hclosed
      · exact Or.inr (by omega)

theorem nullableClosed_nullableAfter (hb : Bounded productions count) :
    NullableClosed productions (nullableAfter productions count) := by
  rcases closed_or_le_length productions count with hclosed | hle
  · exact hclosed
  · -- the list has all nonterminals
    have hknown := known_nullableAfter hb count
    have hsub : (nullableAfter productions count).toFinset ⊆ Finset.range count := by
      intro id hid
      exact Finset.mem_range.mpr (hknown.lt id (List.mem_toFinset.mp hid))
    have hcard : (Finset.range count).card ≤ (nullableAfter productions count).toFinset.card := by
      rw [Finset.card_range, List.toFinset_card_of_nodup hknown.nodup]
      exact hle
    intro p hp _
    have hmem : p.lhs ∈ Finset.range count := Finset.mem_range.mpr (hb p hp).1
    rw [← Finset.eq_of_subset_of_card_le hsub hcard] at hmem
    exact List.mem_toFinset.mp hmem

/-- In a closed list, every item with a tree without leaves is nullable. -/
theorem NullableClosed.isNullableIn (h : NullableClosed productions known) (t : ParseTree) :
    ∀ item, Derives productions item t → t.leaves = [] → item.isNullableIn known = true := by
  induction t using ParseTree.recOnChildren with
  | leaf c =>
    intro item _ hleaves
    cases hleaves
  | node i kind children ih =>
    intro item hderives hleaves
    cases hderives with
    | node hp hchildren =>
      rw [ParseTree.leaves_node, List.flatMap_eq_nil_iff] at hleaves
      refine isNullableIn_iff.mpr ⟨_, h _ hp (List.all_eq_true.mpr fun item hitem => ?_), rfl⟩
      obtain ⟨t, ht, hderives⟩ := exists_of_forall₂_of_mem hchildren hitem
      exact ih t ht item hderives (hleaves t ht)

/-- **The nullable nonterminals are those that derive the empty word.** -/
theorem mem_nullableAfter_iff (hb : Bounded productions count) {id : Nat} :
    id ∈ nullableAfter productions count ↔
      ∃ t, Derives productions (.nonterminal id) t ∧ t.leaves = [] := by
  constructor
  · exact (known_nullableAfter hb count).leafless id
  · rintro ⟨t, ht, hleaves⟩
    have hnull := (nullableClosed_nullableAfter hb).isNullableIn t _ ht hleaves
    obtain ⟨id', hid, heq⟩ := isNullableIn_iff.mp hnull
    obtain rfl := Item.nonterminal.inj heq
    exact hid

end RegularLanguages.Grammar
