import Mathlib.Logic.Relation
import RegularLanguages.Grammar.SelfDerivation
import RegularLanguages.Proofs.Grammar.Nullable

/-!
# The search for self derivations

The search finds a nonterminal if and only if some nonterminal lies on a cycle of edges.

The frames of the stack form a chain: each one was entered by an edge of the frame below it. So an
edge to an active nonterminal, which has a frame, closes a cycle. In the other direction, the
successors of a finished nonterminal are all finished, and they were finished before it. Hence a
finished nonterminal is accessible: every path that starts at it ends.

`Exploring` is the invariant. Between two moves an edge can be in the hand of the search: it has been
taken from the top frame, and its target is neither entered nor passed over yet. The invariant has
this target as a parameter.
-/

namespace RegularLanguages.Grammar

variable {next : Nat → List Nat} {hand : Option Nat} {stack : List Frame}
  {progress progress' : Array Progress}

/-- The frames are linked by edges, the topmost one to the target in hand. Every edge of a frame is
pending, or its target is finished or right above the frame. -/
def Chain (next : Nat → List Nat) (progress : Array Progress) : Option Nat → List Frame → Prop
  | _, [] => True
  | above, frame :: stack =>
    (∀ id ∈ frame.pending, id ∈ next frame.node) ∧
    (∀ id ∈ next frame.node, id ∈ frame.pending ∨ progress[id]? = some .done ∨ id ∈ above) ∧
    (∀ id ∈ above, id ∈ next frame.node) ∧
    Chain next progress (some frame.node) stack

/-- Finishing more nonterminals keeps the chain. -/
theorem Chain.mono (h : Chain next progress hand stack)
    (hdone : ∀ id : Nat, progress[id]? = some .done → progress'[id]? = some .done) :
    Chain next progress' hand stack := by
  induction stack generalizing hand with
  | nil => trivial
  | cons frame stack ih =>
    obtain ⟨hpending, hcovered, habove, hrest⟩ := h
    refine ⟨hpending, fun id hid => ?_, habove, ih hrest⟩
    rcases hcovered id hid with hmem | hfinished | hmem
    · exact Or.inl hmem
    · exact Or.inr (Or.inl (hdone id hfinished))
    · exact Or.inr (Or.inr hmem)

/-- A finished target can be dropped. -/
theorem Chain.drop {id : Nat} (h : Chain next progress (some id) stack)
    (hdone : progress[id]? = some .done) : Chain next progress none stack := by
  cases stack with
  | nil => trivial
  | cons frame stack =>
    obtain ⟨hpending, hcovered, -, hrest⟩ := h
    refine ⟨hpending, fun id' hid' => ?_, fun id' hid' => absurd hid' (Option.not_mem_none id'),
      hrest⟩
    rcases hcovered id' hid' with hmem | hfinished | hmem
    · exact Or.inl hmem
    · exact Or.inr (Or.inl hfinished)
    · obtain rfl := Option.some.inj hmem
      exact Or.inr (Or.inl hdone)

/-- Every frame leads to the target in hand. -/
theorem Chain.leads {id : Nat} (h : Chain next progress (some id) stack) :
    ∀ frame ∈ stack, Relation.TransGen (fun a b => b ∈ next a) frame.node id := by
  induction stack generalizing id with
  | nil =>
    intro frame hframe
    cases hframe
  | cons top stack ih =>
    obtain ⟨-, -, habove, hrest⟩ := h
    intro frame hframe
    have htop : id ∈ next top.node := habove id rfl
    rcases List.mem_cons.mp hframe with rfl | hframe
    · exact .single htop
    · exact (ih hrest frame hframe).tail htop

/-! ## Invariant -/

/-- What holds throughout the search, with a target in hand or without. -/
structure Exploring (next : Nat → List Nat) (hand : Option Nat) (stack : List Frame)
    (progress : Array Progress) : Prop where
  finished : ∀ id : Nat, progress[id]? = some .done → Acc (fun b a => b ∈ next a) id
  active_iff : ∀ id : Nat, progress[id]? = some .active ↔ ∃ frame ∈ stack, frame.node = id
  distinct : (stack.map Frame.node).Nodup
  chain : Chain next progress hand stack

theorem getElem?_setIfInBounds_of_ne {id other : Nat} (h : id ≠ other) (p : Progress) :
    (progress.setIfInBounds id p)[other]? = progress[other]? := by
  rw [Array.getElem?_setIfInBounds, if_neg h]

theorem getElem?_setIfInBounds_self_of {id : Nat} {q : Progress} (h : progress[id]? = some q)
    (p : Progress) : (progress.setIfInBounds id p)[id]? = some p := by
  obtain ⟨hlt, -⟩ := Array.getElem?_eq_some_iff.mp h
  rw [Array.getElem?_setIfInBounds, if_pos rfl, if_pos hlt]

/-- A finished nonterminal stays finished when another one is marked. -/
theorem done_of_setIfInBounds {id other : Nat} {q : Progress} (h : progress[id]? = some q)
    (hq : q ≠ .done) (p : Progress) (hdone : progress[other]? = some .done) :
    (progress.setIfInBounds id p)[other]? = some .done := by
  have hne : id ≠ other := by
    rintro rfl
    exact hq (Option.some.inj (h.symm.trans hdone))
  rw [getElem?_setIfInBounds_of_ne hne]
  exact hdone

namespace Exploring

/-- The next edge of the top frame is taken into the hand. -/
theorem take {node id : Nat} {pending : List Nat}
    (h : Exploring next none (⟨node, id :: pending⟩ :: stack) progress) :
    Exploring next (some id) (⟨node, pending⟩ :: stack) progress := by
  obtain ⟨hpending, hcovered, -, hrest⟩ := h.chain
  refine ⟨h.finished, fun other => ?_, h.distinct, ?_, fun other hother => ?_, ?_, hrest⟩
  · rw [h.active_iff]
    simp
  · exact fun other hother => hpending other (List.mem_cons_of_mem _ hother)
  · rcases hcovered other hother with hmem | hdone | hnone
    · rcases List.mem_cons.mp hmem with rfl | hmem
      · exact Or.inr (Or.inr rfl)
      · exact Or.inl hmem
    · exact Or.inr (Or.inl hdone)
    · cases hnone
  · rintro other hother
    obtain rfl := Option.some.inj hother
    exact hpending _ List.mem_cons_self

/-- A fresh target is entered. -/
theorem enter {id : Nat} (h : Exploring next (some id) stack progress)
    (hfresh : progress[id]? = some .fresh) :
    Exploring next none (⟨id, next id⟩ :: stack) (progress.setIfInBounds id .active) := by
  have hself := getElem?_setIfInBounds_self_of hfresh .active
  have hnotin : ∀ frame ∈ stack, frame.node ≠ id := by
    rintro frame hframe rfl
    have hactive := (h.active_iff frame.node).mpr ⟨frame, hframe, rfl⟩
    rw [hfresh] at hactive
    cases hactive
  have hkept : ∀ other : Nat, progress[other]? = some .done →
      (progress.setIfInBounds id .active)[other]? = some .done :=
    fun _ hdone => done_of_setIfInBounds hfresh (by simp) .active hdone
  refine ⟨fun other hdone => ?_, fun other => ?_, ?_, fun _ hid => hid,
    fun _ hid => Or.inl hid, fun _ hid => (by cases hid), h.chain.mono hkept⟩
  · by_cases hne : id = other
    · subst hne
      rw [hself] at hdone
      cases hdone
    · rw [getElem?_setIfInBounds_of_ne hne] at hdone
      exact h.finished other hdone
  · by_cases hne : id = other
    · subst hne
      rw [hself]
      simp
    · rw [getElem?_setIfInBounds_of_ne hne, h.active_iff]
      simp [hne]
  · rw [List.map_cons, List.nodup_cons]
    refine ⟨fun hmem => ?_, h.distinct⟩
    obtain ⟨frame, hframe, heq⟩ := List.mem_map.mp hmem
    exact hnotin frame hframe heq

/-- A finished target is passed over. -/
theorem drop {id : Nat} (h : Exploring next (some id) stack progress)
    (hdone : progress[id]? = some .done) : Exploring next none stack progress :=
  ⟨h.finished, h.active_iff, h.distinct, h.chain.drop hdone⟩

/-- A frame without pending edges is finished. -/
theorem finish {node : Nat} (h : Exploring next none (⟨node, []⟩ :: stack) progress) :
    Exploring next none stack (progress.setIfInBounds node .done) := by
  obtain ⟨-, hcovered, -, hrest⟩ := h.chain
  have hactive : progress[node]? = some .active :=
    (h.active_iff node).mpr ⟨_, List.mem_cons_self, rfl⟩
  have hself := getElem?_setIfInBounds_self_of hactive .done
  have hnotin : ∀ frame ∈ stack, frame.node ≠ node := by
    intro frame hframe heq
    have hdistinct := h.distinct
    rw [List.map_cons, List.nodup_cons] at hdistinct
    exact hdistinct.1 (List.mem_map.mpr ⟨frame, hframe, heq⟩)
  -- nothing is pending, so all successors are finished
  have hacc : Acc (fun b a => b ∈ next a) node := by
    refine Acc.intro node fun id hid => ?_
    rcases hcovered id hid with hmem | hdone | hnone
    · cases hmem
    · exact h.finished id hdone
    · cases hnone
  have hkept : ∀ other : Nat, progress[other]? = some .done →
      (progress.setIfInBounds node .done)[other]? = some .done :=
    fun _ hdone => done_of_setIfInBounds hactive (by simp) .done hdone
  refine ⟨fun other hdone => ?_, fun other => ?_, ?_, (hrest.mono hkept).drop hself⟩
  · by_cases hne : node = other
    · subst hne
      exact hacc
    · rw [getElem?_setIfInBounds_of_ne hne] at hdone
      exact h.finished other hdone
  · by_cases hne : node = other
    · subst hne
      rw [hself]
      constructor
      · intro heq
        cases heq
      · rintro ⟨frame, hframe, heq⟩
        exact absurd heq (hnotin frame hframe)
    · rw [getElem?_setIfInBounds_of_ne hne, h.active_iff]
      simp [hne]
  · have hdistinct := h.distinct
    rw [List.map_cons, List.nodup_cons] at hdistinct
    exact hdistinct.2

/-- An edge to an active nonterminal closes a cycle. -/
theorem cycle {id : Nat} (h : Exploring next (some id) stack progress)
    (hactive : progress[id]? = some .active) :
    Relation.TransGen (fun a b => b ∈ next a) id id := by
  obtain ⟨frame, hframe, heq⟩ := (h.active_iff id).mp hactive
  have hleads := h.chain.leads frame hframe
  rw [heq] at hleads
  exact hleads

/-! ## Runs -/

/-- How a search may end: with a nonterminal on a cycle, or with all that it entered finished. -/
def Settles (next : Nat → List Nat) (progress : Array Progress) :
    Except Nat (Array Progress) → Prop
  | .error id => Relation.TransGen (fun a b => b ∈ next a) id id
  | .ok progress' => Exploring next none [] progress' ∧ progress'.size = progress.size ∧
      ∀ id : Nat, progress'[id]? = some .fresh → progress[id]? = some .fresh

theorem Settles.of_setIfInBounds {id : Nat} {p : Progress} (hp : p ≠ .fresh)
    {result : Except Nat (Array Progress)}
    (h : Settles next (progress.setIfInBounds id p) result) : Settles next progress result := by
  cases result with
  | error _ => exact h
  | ok progress' =>
    obtain ⟨hdone, hsize, hfresh⟩ := h
    rw [Array.size_setIfInBounds] at hsize
    refine ⟨hdone, hsize, fun other hother => ?_⟩
    have hother := hfresh other hother
    by_cases hne : id = other
    · subst hne
      rw [Array.getElem?_setIfInBounds, if_pos rfl] at hother
      split at hother
      · exact absurd (Option.some.inj hother) hp
      · cases hother
    · rw [getElem?_setIfInBounds_of_ne hne] at hother
      exact hother

/-- **Following the edges of the frames finds a cycle or finishes them.** -/
theorem followEdges (hnext : ∀ a, ∀ b ∈ next a, b < progress.size)
    (h : Exploring next none stack progress) :
    Settles next progress (Grammar.followEdges next stack progress) := by
  fun_induction Grammar.followEdges next stack progress with
  | case1 progress => exact ⟨h, rfl, fun _ hid => hid⟩
  | case2 node stack progress ih =>
    exact (ih (by rwa [Array.size_setIfInBounds]) h.finish).of_setIfInBounds (by simp)
  | case3 node id pending stack progress hfresh ih =>
    exact (ih (by rwa [Array.size_setIfInBounds]) (h.take.enter hfresh)).of_setIfInBounds (by simp)
  | case4 node id pending stack progress hactive => exact h.take.cycle hactive
  | case5 node id pending stack progress hdone ih => exact ih hnext (h.take.drop hdone)
  | case6 node id pending stack progress hnone ih =>
    -- a target out of range is no target of an edge
    obtain ⟨hpending, -⟩ := h.chain
    have hlt := hnext node id (hpending id List.mem_cons_self)
    rw [Array.getElem?_eq_none_iff] at hnone
    omega

/-- When no frame is left, what is not fresh is finished. -/
theorem acc_of_not_fresh {id : Nat} (h : Exploring next none [] progress)
    (hid : id < progress.size) (hfresh : ¬ progress[id]? = some .fresh) :
    Acc (fun b a => b ∈ next a) id := by
  cases hprogress : progress[id] with
  | fresh => exact absurd (Array.getElem?_eq_some_iff.mpr ⟨hid, hprogress⟩) hfresh
  | active =>
    have hactive := Array.getElem?_eq_some_iff.mpr ⟨hid, hprogress⟩
    obtain ⟨frame, hframe, -⟩ := (h.active_iff id).mp hactive
    cases hframe
  | done => exact h.finished id (Array.getElem?_eq_some_iff.mpr ⟨hid, hprogress⟩)

end Exploring

/-- A nonterminal from which every path ends lies on no cycle. -/
theorem not_transGen_of_acc {id : Nat} (h : Acc (fun b a => b ∈ next a) id) :
    ¬ Relation.TransGen (fun a b => b ∈ next a) id id := by
  induction h with
  | intro id _ ih =>
    intro hcycle
    obtain ⟨id', hedge, hback⟩ := Relation.TransGen.head'_iff.mp hcycle
    exact ih id' hedge (Relation.TransGen.tail' hback hedge)

/-- What the answer to a search from some roots says: it lies on a cycle, or all paths from the roots
end. -/
def Searched (next : Nat → List Nat) (roots : List Nat) : Option Nat → Prop
  | some id => Relation.TransGen (fun a b => b ∈ next a) id id
  | none => ∀ root ∈ roots, Acc (fun b a => b ∈ next a) root

theorem Searched.cons {root : Nat} {roots : List Nat} {answer : Option Nat}
    (hroot : Acc (fun b a => b ∈ next a) root) (h : Searched next roots answer) :
    Searched next (root :: roots) answer := by
  cases answer with
  | some id => exact h
  | none => exact List.forall_mem_cons.mpr ⟨hroot, h⟩

/-- **Searching from a row of roots finds a cycle or finishes all of them.** -/
theorem searched_searchFrom (hnext : ∀ a, ∀ b ∈ next a, b < progress.size) (roots : List Nat)
    (hroots : ∀ root ∈ roots, root < progress.size) (h : Exploring next none [] progress) :
    Searched next roots (searchFrom next roots progress) := by
  induction roots generalizing progress with
  | nil =>
    intro root hroot
    cases hroot
  | cons root roots ih =>
    obtain ⟨hroot, hrest⟩ := List.forall_mem_cons.mp hroots
    rw [searchFrom]
    by_cases hfresh : progress[root]? = some .fresh
    · have hentered : Exploring next none [⟨root, next root⟩]
          (progress.setIfInBounds root .active) := by
        have hhand : Exploring next (some root) [] progress :=
          ⟨h.finished, h.active_iff, h.distinct, trivial⟩
        exact hhand.enter hfresh
      have hsettles := hentered.followEdges (by rwa [Array.size_setIfInBounds])
      rw [if_pos hfresh]
      cases hresult : followEdges next [⟨root, next root⟩]
          (progress.setIfInBounds root .active) with
      | error id =>
        rw [hresult] at hsettles
        exact hsettles
      | ok progress' =>
        rw [hresult] at hsettles
        obtain ⟨hdone, hsize, hkept⟩ := hsettles
        rw [Array.size_setIfInBounds] at hsize
        -- the root was entered, and what was entered is never fresh again
        have hroot' : ¬ progress'[root]? = some .fresh := by
          intro hroot'
          have hstill := hkept root hroot'
          rw [getElem?_setIfInBounds_self_of hfresh] at hstill
          cases hstill
        have hacc := hdone.acc_of_not_fresh (by omega) hroot'
        exact (ih (by rwa [hsize]) (by rwa [hsize]) hdone).cons hacc
    · rw [if_neg hfresh]
      exact (ih hnext hrest h).cons (h.acc_of_not_fresh hroot hfresh)

/-! ## Shrinking -/

variable {productions : List Production} {known : List Nat} {count : Nat}

/-- A row of items can shrink to a nonterminal if its neighbours are nullable. -/
theorem mem_shrinkTargets {alone : Bool} {items : List Item} {id : Nat} :
    id ∈ shrinkTargets known alone items ↔
      alone = true ∧ ∃ before after, items = before ++ .nonterminal id :: after ∧
        before.all (Item.isNullableIn known) = true ∧
        after.all (Item.isNullableIn known) = true := by
  induction items generalizing alone with
  | nil => simp [shrinkTargets]
  | cons item rest ih =>
    unfold shrinkTargets
    rw [List.mem_append, ih]
    constructor
    · rintro (hhere | ⟨hboth, before, after, rfl, hbefore, hafter⟩)
      · cases item with
        | terminal c => cases hhere
        | nonterminal id' =>
          simp only at hhere
          split at hhere
          · next hall =>
            obtain rfl := List.mem_singleton.mp hhere
            obtain ⟨halone, hrest⟩ := Bool.and_eq_true_iff.mp hall
            exact ⟨halone, [], rest, rfl, rfl, hrest⟩
          · cases hhere
      · obtain ⟨halone, hitem⟩ := Bool.and_eq_true_iff.mp hboth
        refine ⟨halone, item :: before, after, rfl, ?_, hafter⟩
        rw [List.all_cons, hitem, hbefore]
        rfl
    · rintro ⟨halone, before, after, heq, hbefore, hafter⟩
      cases before with
      | nil =>
        obtain ⟨rfl, rfl⟩ := List.cons.inj heq
        left
        simp [halone, hafter]
      | cons first before =>
        obtain ⟨rfl, rfl⟩ := List.cons.inj heq
        rw [List.all_cons, Bool.and_eq_true] at hbefore
        have hboth := Bool.and_eq_true_iff.mpr ⟨halone, hbefore.1⟩
        exact Or.inr ⟨hboth, before, after, rfl, hbefore.2, hafter⟩

/-- One nonterminal can shrink to another one in one step. -/
def ShrinksTo (productions : List Production) (known : List Nat) (a b : Nat) : Prop :=
  b ∈ shrinksTo productions known a

theorem shrinksTo_iff {a b : Nat} :
    ShrinksTo productions known a b ↔
      ∃ p ∈ productions, p.lhs = a ∧ ∃ before after, p.items = before ++ .nonterminal b :: after ∧
        before.all (Item.isNullableIn known) = true ∧
        after.all (Item.isNullableIn known) = true := by
  rw [ShrinksTo, shrinksTo, List.mem_flatMap]
  constructor
  · rintro ⟨p, hp, hmem⟩
    split at hmem
    · next hlhs => exact ⟨p, hp, hlhs, (mem_shrinkTargets.mp hmem).2⟩
    · cases hmem
  · rintro ⟨p, hp, hlhs, hsplit⟩
    refine ⟨p, hp, ?_⟩
    rw [if_pos hlhs]
    exact mem_shrinkTargets.mpr ⟨rfl, hsplit⟩

theorem Bounded.lt_of_shrinksTo (hb : Bounded productions count) {a b : Nat}
    (h : ShrinksTo productions known a b) : a < count ∧ b < count := by
  obtain ⟨p, hp, rfl, before, after, hitems, -⟩ := shrinksTo_iff.mp h
  refine ⟨(hb p hp).1, (hb p hp).2 b ?_⟩
  rw [hitems]
  exact List.mem_append_right _ List.mem_cons_self

/-- **The search finds a self derivation if and only if there is one**, and what it finds is one. -/
theorem searched_selfDerivation? (hb : Bounded productions count) (known : List Nat) :
    Searched (shrinksTo productions known) (List.range count)
      (selfDerivation? count productions known) := by
  have hedges : (fun id => ((List.range count).map (shrinksTo productions known)).toArray.getD id
      []) = shrinksTo productions known := by
    funext id
    by_cases hid : id < count
    · simp [hid]
    · -- a number out of range has no production
      have hnil : shrinksTo productions known id = [] := by
        rw [List.eq_nil_iff_forall_not_mem]
        intro other hother
        exact hid (hb.lt_of_shrinksTo hother).1
      rw [hnil, Array.getD_eq_getD_getElem?, Array.getElem?_eq_none (by simpa using hid)]
      rfl
  have hsize : (Array.replicate count Progress.fresh).size = count := Array.size_replicate
  have hstart : Exploring (shrinksTo productions known) none [] (.replicate count .fresh) := by
    have hfresh : ∀ (id : Nat) (p : Progress),
        (Array.replicate count Progress.fresh)[id]? = some p → p = .fresh := by
      intro id p hp
      rw [Array.getElem?_replicate] at hp
      split at hp
      · exact (Option.some.inj hp).symm
      · cases hp
    refine ⟨fun id hdone => ?_, fun id => ?_, List.nodup_nil, trivial⟩
    · cases hfresh id _ hdone
    · constructor
      · intro hactive
        cases hfresh id _ hactive
      · rintro ⟨frame, hframe, -⟩
        cases hframe
  rw [selfDerivation?, hedges]
  refine searched_searchFrom (fun a b hab => ?_) _ (fun root hroot => ?_) hstart
  · rw [hsize]
    exact (hb.lt_of_shrinksTo hab).2
  · rw [hsize]
    exact List.mem_range.mp hroot

theorem not_transGen_of_selfDerivation?_eq_none (hb : Bounded productions count)
    (h : selfDerivation? count productions known = none) (id : Nat) :
    ¬ Relation.TransGen (ShrinksTo productions known) id id := by
  intro hcycle
  have hsearched := searched_selfDerivation? hb known
  rw [h] at hsearched
  obtain ⟨id', hedge, -⟩ := Relation.TransGen.head'_iff.mp hcycle
  have hid : id ∈ List.range count := List.mem_range.mpr (hb.lt_of_shrinksTo hedge).1
  exact not_transGen_of_acc (hsearched id hid) hcycle

theorem transGen_of_selfDerivation?_eq_some (hb : Bounded productions count) {id : Nat}
    (h : selfDerivation? count productions known = some id) :
    Relation.TransGen (ShrinksTo productions known) id id := by
  have hsearched := searched_selfDerivation? hb known
  rw [h] at hsearched
  exact hsearched

end RegularLanguages.Grammar
