import Mathlib.Data.Finset.Card
import RegularLanguages.Proofs.StateSet.BitRow

/-!
# Programs on sets of states compute with sets

A program makes sets with whatever capacities, adds states and joins sets, in any order. What its
sets stand for is told by `meaning`, which does the same with finite sets of numbers and has no
capacities. `Lawful.exists_step?` ties one operation to it, and hence every program: no operation
fails, each insertion tells whether the state was absent, and the members of the sets are the states
that were inserted (`Lawful.exists_run?`). All answers about the sets can be read off their members,
so they do not depend on anything else that the program did.
-/

namespace RegularLanguages.SetOperations

variable {α : Type} {k : SetOperations α}

/-! ## What a program means -/

/-- One operation on mathematical sets. Capacities do not matter. -/
def Progress.after (p : Progress (Finset Nat)) : Command → Progress (Finset Nat)
  | .withCapacity _ => p.add ∅
  | .singleton q _ => p.add {q}
  | .collect qs => p.add qs.toFinset
  | .insert i q =>
    match p.sets[i]? with
    | some S => ⟨p.sets.set i (insert q S), p.fresh ++ [decide (q ∉ S)]⟩
    | none => p
  | .union i j =>
    match p.sets[i]?, p.sets[j]? with
    | some S, some T => { p with sets := p.sets.set i (S ∪ T) }
    | _, _ => p

/-- The mathematical sets of a program, and for each insertion whether the state was absent. -/
def meaning (program : List Command) : Progress (Finset Nat) := program.foldl .after .start

/-! ## Members -/

/-- The members of a set. -/
def members (k : SetOperations α) (s : α) : Finset Nat := (k.toList s).toFinset

/-- The sets of a program, each replaced by its members. -/
def Progress.members (p : Progress α) (k : SetOperations α) : Progress (Finset Nat) :=
  ⟨p.sets.map k.members, p.fresh⟩

theorem Progress.members_add (p : Progress α) (k : SetOperations α) (s : α) :
    (p.add s).members k = (p.members k).add (k.members s) := by
  simp [add, members]

namespace Lawful

variable (hk : k.Lawful) {s t : α}
include hk

theorem mem_members {q : Nat} : q ∈ k.members s ↔ k.contains s q = true := by
  rw [members, List.mem_toFinset, hk.mem_toList]

theorem members_eq {S : Finset Nat} (h : ∀ q, k.contains s q = decide (q ∈ S)) :
    k.members s = S := by
  ext q
  rw [hk.mem_members, h, decide_eq_true_iff]

theorem members_eq_iff : k.members s = k.members t ↔ k.toList s = k.toList t := by
  refine ⟨fun h => ?_, fun h => by rw [members, h, members]⟩
  refine (hk.pairwise_toList s).eq_of_mem_iff (hk.pairwise_toList t) fun q => ?_
  rw [← List.mem_toFinset, ← members, h, members, List.mem_toFinset]

theorem contains_eq (s : α) (q : Nat) : k.contains s q = decide (q ∈ k.members s) := by
  rw [Bool.eq_iff_iff, decide_eq_true_iff, hk.mem_members]

/-! ## One operation -/

theorem members_withCapacity (n : Nat) : k.members (k.withCapacity n) = ∅ :=
  hk.members_eq fun q => by simp [hk.contains_withCapacity]

theorem members_union (s t : α) : k.members (k.union s t) = k.members s ∪ k.members t :=
  hk.members_eq fun q => by
    simp [hk.contains_union, hk.contains_eq]

theorem members_insert (s : α) (q : Nat) :
    ∃ s', k.insert? s q = some (decide (q ∉ k.members s), s') ∧
      k.members s' = insert q (k.members s) := by
  obtain ⟨s', hs', hmem⟩ := hk.exists_insert? s q
  refine ⟨s', by rw [hs', hk.contains_eq, decide_not], hk.members_eq fun r => ?_⟩
  simp [hmem, hk.contains_eq]

/-- **An operation does to the members what it does to mathematical sets.** -/
theorem exists_step? (p : Progress α) (c : Command) :
    ∃ p', k.step? p c = some p' ∧ p'.members k = (p.members k).after c := by
  cases c with
  | withCapacity n =>
    exact ⟨_, rfl, by rw [Progress.members_add, hk.members_withCapacity, Progress.after]⟩
  | singleton q n =>
    obtain ⟨s, hs, hmem⟩ := hk.exists_singleton? q n
    have hmembers : k.members s = {q} := hk.members_eq fun r => by simp [hmem]
    exact ⟨p.add s, by rw [step?, hs, Option.map_some],
      by rw [Progress.members_add, hmembers, Progress.after]⟩
  | collect qs =>
    obtain ⟨s, hs, hmem⟩ := hk.exists_ofList? qs
    have hmembers : k.members s = qs.toFinset := hk.members_eq fun r => by simp [hmem]
    exact ⟨p.add s, by rw [step?, hs, Option.map_some],
      by rw [Progress.members_add, hmembers, Progress.after]⟩
  | insert i q =>
    simp only [step?, Progress.after, Progress.members, List.getElem?_map]
    cases p.sets[i]? with
    | none => exact ⟨p, rfl, rfl⟩
    | some s =>
      obtain ⟨s', hs', hmem⟩ := hk.members_insert s q
      exact ⟨_, by simp only [hs', Option.map_some]; rfl, by simp [List.map_set, hmem]⟩
  | union i j =>
    simp only [step?, Progress.after, Progress.members, List.getElem?_map]
    cases p.sets[i]? with
    | none => exact ⟨p, rfl, rfl⟩
    | some s =>
      cases p.sets[j]? with
      | none => exact ⟨p, rfl, rfl⟩
      | some t => exact ⟨_, rfl, by simp [List.map_set, hk.members_union]⟩

theorem exists_foldlM_step? (program : List Command) (first : Progress α) :
    ∃ p, program.foldlM k.step? first = some p ∧
      p.members k = program.foldl .after (first.members k) := by
  induction program generalizing first with
  | nil => exact ⟨first, rfl, rfl⟩
  | cons c rest ih =>
    obtain ⟨next, hnext, hmembers⟩ := hk.exists_step? first c
    obtain ⟨p, hp, hrest⟩ := ih next
    refine ⟨p, ?_, by rw [hrest, hmembers, List.foldl_cons]⟩
    rw [List.foldlM_cons, hnext]
    exact hp

/-- **A program computes its meaning.** -/
theorem exists_run? (program : List Command) :
    ∃ p, k.run? program = some p ∧ p.members k = meaning program :=
  hk.exists_foldlM_step? program .start

end Lawful

/-! ## Answers -/

/-- What a set tells is what a mathematical set tells. -/
structure Tells (k : SetOperations α) (s : α) (S : Finset Nat) : Prop where
  contains_eq : ∀ q, k.contains s q = decide (q ∈ S)
  size_eq : k.size s = S.card
  isEmpty_iff : k.isEmpty s = true ↔ S = ∅
  mem_toList : ∀ q, q ∈ k.toList s ↔ q ∈ S
  increasing : (k.toList s).Pairwise (· < ·)

/-- Two sets compare as two mathematical sets do, and as their lists of members do. -/
structure Compares (k : SetOperations α) (s t : α) (S T : Finset Nat) : Prop where
  intersects_iff : k.intersects s t = true ↔ ∃ q, q ∈ S ∧ q ∈ T
  equal_iff : k.equal s t = true ↔ S = T
  equal_iff_toList : k.equal s t = true ↔ k.toList s = k.toList t

/-- The outcome of a program is that of the program on mathematical sets, as far as it can be asked
for. -/
structure Shows (k : SetOperations α) (p : Progress α) (q : Progress (Finset Nat)) : Prop where
  fresh_eq : p.fresh = q.fresh
  length_eq : p.sets.length = q.sets.length
  tells : ∀ (i : Nat) (s : α) (S : Finset Nat), p.sets[i]? = some s → q.sets[i]? = some S →
    k.Tells s S
  compares : ∀ (i j : Nat) (s t : α) (S T : Finset Nat), p.sets[i]? = some s →
    p.sets[j]? = some t → q.sets[i]? = some S → q.sets[j]? = some T → k.Compares s t S T

namespace Lawful

variable (hk : k.Lawful)
include hk

theorem tells (s : α) : k.Tells s (k.members s) where
  contains_eq := hk.contains_eq s
  size_eq := by
    rw [hk.size_eq, members, List.toFinset_card_of_nodup]
    exact (hk.pairwise_toList s).imp Nat.ne_of_lt
  isEmpty_iff := by
    rw [hk.isEmpty_iff, Finset.eq_empty_iff_forall_notMem]
    simp only [hk.mem_members, Bool.not_eq_true]
  mem_toList q := by rw [members, List.mem_toFinset]
  increasing := hk.pairwise_toList s

theorem compares (s t : α) : k.Compares s t (k.members s) (k.members t) where
  intersects_iff := by simp only [hk.intersects_iff, hk.mem_members]
  equal_iff := (hk.equal_iff s t).trans hk.members_eq_iff.symm
  equal_iff_toList := hk.equal_iff s t

theorem shows (p : Progress α) : k.Shows p (p.members k) where
  fresh_eq := rfl
  length_eq := (List.length_map k.members).symm
  tells i s S hs hS := by
    rw [Progress.members, List.getElem?_map, hs] at hS
    exact Option.some.inj hS ▸ hk.tells s
  compares i j s t S T hs ht hS hT := by
    rw [Progress.members, List.getElem?_map, hs] at hS
    rw [Progress.members, List.getElem?_map, ht] at hT
    exact Option.some.inj hS ▸ Option.some.inj hT ▸ hk.compares s t

end Lawful

/-- **Sets of states are sets, whatever a program did with them.** No operation of a program fails,
neither on sets over lawful rows nor on the sets of this library. Each insertion tells whether the
state was absent. The members of each set are the states that were inserted, and a union gets
exactly the members of both sets, whichever row is the longer one. All that can be asked of the sets
is answered from their members alone, whatever the capacities are and however they came about. The
list of the members is strictly increasing, and two sets are equal exactly if their lists are. -/
theorem programs_compute_with_sets {β : Type} {v : BitRow β} (hv : v.Lawful)
    (program : List Command) :
    (∃ p, v.operations.run? program = some p ∧ v.operations.Shows p (meaning program)) ∧
      ∃ p, StateSet.operations.run? program = some p ∧
        StateSet.operations.Shows p (meaning program) := by
  refine ⟨?_, ?_⟩
  · obtain ⟨p, hp, hmembers⟩ := hv.operations.exists_run? program
    exact ⟨p, hp, hmembers ▸ hv.operations.shows p⟩
  · obtain ⟨p, hp, hmembers⟩ := StateSet.lawful_operations.exists_run? program
    exact ⟨p, hp, hmembers ▸ StateSet.lawful_operations.shows p⟩

/-- The case of a state that is inserted twice, of one past the end of its row, of unions with a
shorter and with a longer row, and of equal sets in rows of different lengths. -/
theorem programs_compute_with_sets_across_sizes :
    let program : List Command := [.withCapacity 4, .insert 0 2, .insert 0 2, .insert 0 64,
      .collect [40, 1], .singleton 64 600, .union 2 1, .insert 1 64, .union 0 2]
    let k := BitRow.arrays.operations
    BitRow.arrays.Lawful ∧
      ∃ a b c, k.run? program = some ⟨[a, b, c], [true, false, true, true]⟩ ∧
        k.toList a = [1, 2, 40, 64] ∧ k.size b = 3 ∧ k.contains b 64 = true ∧
        k.equal b c = true ∧ k.toList b = k.toList c ∧ k.intersects a c = true ∧
        k.equal a b = false := by
  intro program k
  obtain ⟨⟨⟨sets, fresh⟩, hrun, hshows⟩, -⟩ :=
    programs_compute_with_sets BitRow.lawful_arrays program
  have hsets : (meaning program).sets = [{1, 2, 40, 64}, {1, 40, 64}, {1, 40, 64}] := by decide
  obtain ⟨a, b, c, rfl⟩ : ∃ a b c, sets = [a, b, c] :=
    List.length_eq_three.mp (hshows.length_eq.trans (congrArg List.length hsets))
  obtain rfl : fresh = [true, false, true, true] := hshows.fresh_eq.trans (by decide)
  have ha := hshows.tells 0 a {1, 2, 40, 64} rfl (by rw [hsets]; rfl)
  have hb := hshows.tells 1 b {1, 40, 64} rfl (by rw [hsets]; rfl)
  have hbc := hshows.compares 1 2 b c {1, 40, 64} {1, 40, 64} rfl rfl (by rw [hsets]; rfl)
    (by rw [hsets]; rfl)
  have hac := hshows.compares 0 2 a c {1, 2, 40, 64} {1, 40, 64} rfl rfl (by rw [hsets]; rfl)
    (by rw [hsets]; rfl)
  have hab := hshows.compares 0 1 a b {1, 2, 40, 64} {1, 40, 64} rfl rfl (by rw [hsets]; rfl)
    (by rw [hsets]; rfl)
  have hlist : k.toList a = [1, 2, 40, 64] :=
    ha.increasing.eq_of_mem_iff (by decide) fun q => by simp [ha.mem_toList]
  have hequal := hbc.equal_iff.mpr rfl
  exact ⟨BitRow.lawful_arrays, a, b, c, hrun, hlist, hb.size_eq, hb.contains_eq 64, hequal,
    hbc.equal_iff_toList.mp hequal, hac.intersects_iff.mpr ⟨1, by decide, by decide⟩,
    Bool.not_eq_true _ ▸ mt hab.equal_iff.mp (by decide)⟩

end RegularLanguages.SetOperations
