import RegularLanguages.Proofs.Automaton.Copy

/-!
# The languages of the constructions

Each construction of the algebra accepts the language that its name promises: sums, products, powers
and Kleene stars of the languages of its operands. The statements hold whatever the symbol numbers
spell, so they serve for words of characters and for rows of numbers alike.

The copies are laid out by the same edits in all constructions, and what a path can do in a copy is
settled in `CopyAt`. What is left for each construction are the ε moves between the copies.
-/

namespace RegularLanguages.Automaton

open Computability

variable {α : Type} {l r a : Automaton} {spell : Nat → Option α}

@[simp] theorem accepting_embed (m other : Automaton) :
    (m.embed other).accepting = m.accepting := rfl

@[simp] theorem edgesFrom_addAccepting (m : Automaton) (p q : Nat) :
    (m.addAccepting p).edgesFrom q = m.edgesFrom q := rfl

/-- A path from a state without edges goes nowhere. -/
theorem Path.eq_of_edgesFrom_nil {m : Automaton} {q s : Nat} {w : List α}
    (hedges : m.edgesFrom q = []) (h : m.Path spell q w s) : w = [] ∧ s = q := by
  cases h with
  | refl => exact ⟨rfl, rfl⟩
  | epsilon hedge _ =>
    rw [hedges] at hedge
    cases hedge
  | symbol hedge _ _ =>
    rw [hedges] at hedge
    cases hedge

/-- A path from a state with ε edges only starts with one of them, unless it is over. -/
theorem Path.exists_epsilon {m : Automaton} {q s : Nat} {w : List α} (hne : q ≠ s)
    (hlabel : ∀ e ∈ m.edgesFrom q, e.label = .epsilon) (h : m.Path spell q w s) :
    ∃ t, ⟨.epsilon, t⟩ ∈ m.edgesFrom q ∧ m.Path spell t w s := by
  cases h with
  | refl => exact absurd rfl hne
  | epsilon hedge hrest => exact ⟨_, hedge, hrest⟩
  | symbol hedge _ _ => cases hlabel _ hedge

/-- Paths depend on the edges alone. -/
theorem Path.congr {m n : Automaton} (hedges : ∀ q, m.edgesFrom q = n.edgesFrom q) {q s : Nat}
    {w : List α} (h : m.Path spell q w s) : n.Path spell q w s := by
  induction h with
  | refl => exact .refl _
  | epsilon hedge _ ih => exact .epsilon (hedges _ ▸ hedge) ih
  | symbol hedge hspell _ ih => exact .symbol (hedges _ ▸ hedge) hspell ih

/-! ## Basic languages -/

theorem language_emptyWord (alphabet : Alphabet) : (emptyWord alphabet).language spell = 1 := by
  ext w
  have haccepting : ∀ q, (emptyWord alphabet).accepting.contains q = true ↔ q = 0 := by
    intro q
    simp [emptyWord, addAccepting, ofStart]
  rw [mem_language, Language.mem_one]
  constructor
  · rintro ⟨q, -, hpath⟩
    have hedges : (emptyWord alphabet).edgesFrom 0 = [] := rfl
    exact (hpath.eq_of_edgesFrom_nil hedges).1
  · rintro rfl
    exact ⟨0, (haccepting 0).mpr rfl, .refl 0⟩

theorem language_singleEdge {alphabet : Alphabet} {id : Nat} {x : α} (hspell : spell id = some x) :
    (singleEdge alphabet id).language spell = {[x]} := by
  ext w
  have haccepting : ∀ q, (singleEdge alphabet id).accepting.contains q = true ↔ q = 1 := by
    intro q
    simp [singleEdge, addAccepting, addTransition, addState, ofStart]
  have hzero : (singleEdge alphabet id).edgesFrom 0 = [⟨.symbol id, 1⟩] := rfl
  have hone : (singleEdge alphabet id).edgesFrom 1 = [] := rfl
  rw [mem_language]
  show _ ↔ w = [x]
  constructor
  · rintro ⟨q, hq, hpath⟩
    rw [haccepting] at hq
    subst hq
    cases hpath with
    | epsilon hedge _ =>
      rw [show (singleEdge alphabet id).start = 0 from rfl, hzero] at hedge
      simp at hedge
    | symbol hedge hx hrest =>
      rw [show (singleEdge alphabet id).start = 0 from rfl, hzero] at hedge
      simp only [List.mem_singleton, Edge.mk.injEq, Label.symbol.injEq] at hedge
      obtain ⟨rfl, rfl⟩ := hedge
      obtain rfl := Option.some.inj (hspell.symm.trans hx)
      rw [(hrest.eq_of_edgesFrom_nil hone).1]
  · rintro rfl
    exact ⟨1, (haccepting 1).mpr rfl, .symbol (hzero ▸ List.mem_singleton_self _) hspell (.refl 1)⟩

/-! ## Union -/

theorem start_unionAligned : (unionAligned l r).start = 0 := by
  simp [unionAligned, addAccepting, addState, embed, ofStart]

theorem contains_accepting_unionAligned {q : Nat} :
    (unionAligned l r).accepting.contains q = true ↔ q = 1 + l.numStates + r.numStates := by
  simp [unionAligned, addAccepting, addState, ofStart]

theorem copyAt_left_unionAligned :
    (unionAligned l r).CopyAt l 1 (some (1 + l.numStates + r.numStates)) := by
  have hcopied : ((ofStart l.alphabet).embed l).CopyAt l 1 none := copyAt_embed _ l
  have hentered := ((hcopied.embed r).addState.addEpsilons [0] (l.start + 1)
    (by simp)).addEpsilons [0] (r.start + (1 + l.numStates)) (by simp)
  have hleft := (hentered.leadTo (1 + l.numStates + r.numStates)).addEpsilons
    (r.accepting.toList.map (· + (1 + l.numStates))) (1 + l.numStates + r.numStates) (by simp)
  exact hleft.addAllAccepting [1 + l.numStates + r.numStates]

theorem copyAt_right_unionAligned (hl : l.WellFormed) :
    (unionAligned l r).CopyAt r (1 + l.numStates) (some (1 + l.numStates + r.numStates)) := by
  have hcopied : (((ofStart l.alphabet).embed l).embed r).CopyAt r (1 + l.numStates) none := by
    have := copyAt_embed ((ofStart l.alphabet).embed l) r
    rwa [numStates_embed, numStates_ofStart] at this
  have hzero : ∀ q ∈ [0], q < 1 + l.numStates ∨ 1 + l.numStates + r.numStates ≤ q := by
    intro q hq
    obtain rfl := List.mem_singleton.mp hq
    omega
  have hleft : ∀ q ∈ l.accepting.toList.map (· + 1),
      q < 1 + l.numStates ∨ 1 + l.numStates + r.numStates ≤ q := by
    intro q hq
    obtain ⟨p, hp, rfl⟩ := List.mem_map.mp hq
    have := hl.accepting_lt p (StateSet.mem_toList.mp hp)
    omega
  have hentered := (hcopied.addState.addEpsilons [0] (l.start + 1) hzero).addEpsilons [0]
    (r.start + (1 + l.numStates)) hzero
  have hleads := (hentered.addEpsilons _ (1 + l.numStates + r.numStates) hleft).leadTo
    (1 + l.numStates + r.numStates)
  exact hleads.addAllAccepting [1 + l.numStates + r.numStates]

theorem mem_edgesFrom_zero_unionAligned {e : Edge} :
    e ∈ (unionAligned l r).edgesFrom 0 ↔
      e = ⟨.epsilon, l.start + 1⟩ ∨ e = ⟨.epsilon, r.start + (1 + l.numStates)⟩ := by
  simp [unionAligned, mem_edgesFrom_addEpsilons, edgesFrom_embed]

theorem edgesFrom_last_unionAligned (hl : l.WellFormed) (hr : r.WellFormed) :
    (unionAligned l r).edgesFrom (1 + l.numStates + r.numStates) = [] := by
  have hzero : 1 + l.numStates + r.numStates ∉ [0] := by simp
  have hleft : 1 + l.numStates + r.numStates ∉ l.accepting.toList.map (· + 1) := by
    intro hmem
    obtain ⟨p, hp, heq⟩ := List.mem_map.mp hmem
    have := hl.accepting_lt p (StateSet.mem_toList.mp hp)
    omega
  have hright : 1 + l.numStates + r.numStates ∉
      r.accepting.toList.map (· + (1 + l.numStates)) := by
    intro hmem
    obtain ⟨p, hp, heq⟩ := List.mem_map.mp hmem
    have := hr.accepting_lt p (StateSet.mem_toList.mp hp)
    omega
  rw [unionAligned, edgesFrom_addAccepting, edgesFrom_addEpsilons_of_not_mem hright,
    edgesFrom_addEpsilons_of_not_mem hleft, edgesFrom_addEpsilons_of_not_mem hzero,
    edgesFrom_addEpsilons_of_not_mem hzero, edgesFrom_addState, edgesFrom_of_numStates_le]
  simp

/-- **The union accepts the sum of the languages.** -/
theorem language_unionAligned (hl : l.WellFormed) (hr : r.WellFormed) :
    (unionAligned l r).language spell = l.language spell + r.language spell := by
  have hleft : (unionAligned l r).CopyAt l 1 _ := copyAt_left_unionAligned
  have hright := copyAt_right_unionAligned (r := r) hl
  have hlast := edgesFrom_last_unionAligned hl hr
  ext w
  rw [mem_language, start_unionAligned, Language.mem_add]
  constructor
  · rintro ⟨q, hq, hpath⟩
    rw [contains_accepting_unionAligned] at hq
    subst hq
    have hlabel : ∀ e ∈ (unionAligned l r).edgesFrom 0, e.label = .epsilon := by
      intro e he
      rcases mem_edgesFrom_zero_unionAligned.mp he with rfl | rfl <;> rfl
    obtain ⟨t, hedge, hrest⟩ := hpath.exists_epsilon (by omega) hlabel
    rcases mem_edgesFrom_zero_unionAligned.mp hedge with heq | heq
    · obtain ⟨-, rfl⟩ := Edge.mk.inj heq
      obtain ⟨u, v, rfl, hu, hv⟩ := hleft.escape_to hl (by omega) hrest
      rw [(hv.eq_of_edgesFrom_nil hlast).1, List.append_nil]
      exact Or.inl hu
    · obtain ⟨-, rfl⟩ := Edge.mk.inj heq
      obtain ⟨u, v, rfl, hu, hv⟩ := hright.escape_to hr (by omega) hrest
      rw [(hv.eq_of_edgesFrom_nil hlast).1, List.append_nil]
      exact Or.inr hu
  · rintro (hw | hw)
    · refine ⟨_, contains_accepting_unionAligned.mpr rfl, .epsilon ?_ (hleft.path_to_exit hl hw)⟩
      exact mem_edgesFrom_zero_unionAligned.mpr (Or.inl rfl)
    · refine ⟨_, contains_accepting_unionAligned.mpr rfl, .epsilon ?_ (hright.path_to_exit hr hw)⟩
      exact mem_edgesFrom_zero_unionAligned.mpr (Or.inr rfl)

/-! ## Concatenation -/

theorem contains_accepting_concatAligned {q : Nat} :
    (concatAligned l r).accepting.contains q = true ↔
      ∃ p, r.accepting.contains p = true ∧ p + l.numStates = q := by
  simp [concatAligned, clearAccepting]

theorem copyAt_left_concatAligned :
    (concatAligned l r).CopyAt l 0 (some (r.start + l.numStates)) := by
  have hcopied := (copyAt_clearAccepting l).embed r
  have hleads := hcopied.leadTo (r.start + l.numStates)
  simp only [Nat.add_zero, List.map_id'] at hleads
  exact hleads.addAllAccepting _

theorem copyAt_right_concatAligned (hl : l.WellFormed) :
    (concatAligned l r).CopyAt r l.numStates none := by
  have hcopied : (l.clearAccepting.embed r).CopyAt r l.numStates none := copyAt_embed _ r
  have hleft : ∀ q ∈ l.accepting.toList, q < l.numStates ∨ l.numStates + r.numStates ≤ q := by
    intro q hq
    exact Or.inl (hl.accepting_lt q (StateSet.mem_toList.mp hq))
  exact (hcopied.addEpsilons _ _ hleft).addAllAccepting _

/-- **The concatenation accepts the product of the languages.** -/
theorem language_concatAligned (hl : l.WellFormed) (hr : r.WellFormed) :
    (concatAligned l r).language spell = l.language spell * r.language spell := by
  have hleft : (concatAligned l r).CopyAt l 0 _ := copyAt_left_concatAligned
  have hright := copyAt_right_concatAligned (r := r) hl
  have hstart : (concatAligned l r).start = l.start := by
    simp [concatAligned, clearAccepting, embed]
  ext w
  rw [mem_language, hstart, Language.mem_mul]
  constructor
  · rintro ⟨q, hq, hpath⟩
    obtain ⟨p, hp, rfl⟩ := contains_accepting_concatAligned.mp hq
    obtain ⟨u, v, rfl, hu, hv⟩ := hleft.escape_to hl (by omega) hpath
    obtain ⟨p', -, heq, hin⟩ := hright.path_within hr hv
    obtain rfl : p = p' := Nat.add_right_cancel heq
    exact ⟨u, hu, v, ⟨p, hp, hin⟩, rfl⟩
  · rintro ⟨u, hu, v, ⟨p, hp, hv⟩, rfl⟩
    refine ⟨p + l.numStates, contains_accepting_concatAligned.mpr ⟨p, hp, rfl⟩, ?_⟩
    exact (hleft.path_to_exit hl hu).append (hright.path hr hr.start_lt hv)

/-! ## Star -/

theorem start_star : a.star.start = 0 := by
  simp [star, addAccepting, embed, ofStart]

theorem contains_accepting_star {q : Nat} : a.star.accepting.contains q = true ↔ q = 0 := by
  simp [star, addAccepting, ofStart]

theorem copyAt_star : a.star.CopyAt a 1 (some 0) := by
  have hcopied : ((ofStart a.alphabet).embed a).CopyAt a 1 none := copyAt_embed _ a
  have hentered := hcopied.addEpsilons [0] (a.start + 1) (by simp)
  exact (hentered.leadTo 0).addAllAccepting [0]

theorem mem_edgesFrom_zero_star {e : Edge} :
    e ∈ a.star.edgesFrom 0 ↔ e = ⟨.epsilon, a.start + 1⟩ := by
  simp only [star, edgesFrom_addAccepting, mem_edgesFrom_addEpsilons, edgesFrom_embed,
    edgesFrom_ofStart, numStates_addEpsilons, numStates_embed, numStates_ofStart]
  simp only [Nat.lt_one_iff, if_true, List.not_mem_nil, false_or, List.mem_singleton, true_and,
    List.mem_map, Nat.add_eq_zero_iff, Nat.one_ne_zero, and_false, exists_const, false_and,
    or_false, and_iff_right_iff_imp]
  omega

/-- A path to the new start reads words of the operand, one after the other. If it begins within the
copy, it first completes the word that is being read there. -/
theorem exists_of_path_star (ha : a.WellFormed) {p s : Nat} {w : List α}
    (h : a.star.Path spell p w s) (hs : s = 0) :
    (p = 0 → w ∈ (a.language spell)∗) ∧
      ∀ q < a.numStates, p = q + 1 → ∃ u v r, w = u ++ v ∧ a.accepting.contains r = true ∧
        a.Path spell q u r ∧ v ∈ (a.language spell)∗ := by
  induction h with
  | refl p =>
    subst hs
    exact ⟨fun _ => Language.nil_mem_kstar _, fun q _ hq => by omega⟩
  | epsilon hedge _ ih =>
    obtain ⟨hzero, hcopy⟩ := ih hs
    constructor
    · -- from the new start into the copy: a word of the operand begins
      rintro rfl
      obtain ⟨-, rfl⟩ := Edge.mk.inj (mem_edgesFrom_zero_star.mp hedge)
      obtain ⟨u, v, r, rfl, hr, hu, hv⟩ := hcopy a.start ha.start_lt rfl
      have hword : u ∈ a.language spell := ⟨r, hr, hu⟩
      rw [← Language.one_add_self_mul_kstar_eq_kstar]
      exact Or.inr (Language.append_mem_mul hword hv)
    · rintro q hq rfl
      rcases (copyAt_star.mem_edges q hq _).mp hedge with ⟨⟨_, t⟩, hf, hshift⟩ | ⟨hacc, t, ht, heq⟩
      · obtain ⟨rfl, rfl⟩ := Edge.mk.inj hshift
        obtain ⟨u, v, r, rfl, hr, hu, hv⟩ := hcopy t (ha.target_lt _ _ hf) rfl
        exact ⟨u, v, r, rfl, hr, .epsilon hf hu, hv⟩
      · -- back to the new start: the word is complete
        obtain rfl := Option.some.inj ht
        obtain ⟨-, rfl⟩ := Edge.mk.inj heq
        exact ⟨[], _, q, rfl, hacc, .refl q, hzero rfl⟩
  | symbol hedge hspell _ ih =>
    obtain ⟨-, hcopy⟩ := ih hs
    constructor
    · rintro rfl
      cases (Edge.mk.inj (mem_edgesFrom_zero_star.mp hedge)).1
    · rintro q hq rfl
      rcases (copyAt_star.mem_edges q hq _).mp hedge with ⟨⟨_, t⟩, hf, hshift⟩ | ⟨-, t, -, heq⟩
      · obtain ⟨rfl, rfl⟩ := Edge.mk.inj hshift
        obtain ⟨u, v, r, rfl, hr, hu, hv⟩ := hcopy t (ha.target_lt _ _ hf) rfl
        exact ⟨_ :: u, v, r, rfl, hr, .symbol hf hspell hu, hv⟩
      · cases (Edge.mk.inj heq).1

/-- **The star accepts the Kleene star of the language.** -/
theorem language_star (ha : a.WellFormed) :
    a.star.language spell = (a.language spell)∗ := by
  ext w
  rw [mem_language, start_star]
  constructor
  · rintro ⟨q, hq, hpath⟩
    rw [contains_accepting_star] at hq
    exact (exists_of_path_star ha hpath hq).1 rfl
  · intro hw
    obtain ⟨words, rfl, hwords⟩ := Language.mem_kstar.mp hw
    refine ⟨0, contains_accepting_star.mpr rfl, ?_⟩
    clear hw
    induction words with
    | nil => exact .refl 0
    | cons u rest ih =>
      have hu := copyAt_star.path_to_exit ha (hwords u List.mem_cons_self)
      have hrestwords : ∀ y ∈ rest, y ∈ a.language spell :=
        fun y hy => hwords y (List.mem_cons_of_mem _ hy)
      have hrest := ih hrestwords
      exact .epsilon (mem_edgesFrom_zero_star.mpr rfl) (hu.append hrest)

end RegularLanguages.Automaton
