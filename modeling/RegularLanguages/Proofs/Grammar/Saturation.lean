import Mathlib.Data.Finset.Card
import Mathlib.Data.Finset.Range
import RegularLanguages.Proofs.Grammar.Pass

/-!
# Passes are repeated often enough

A nonterminal's rank is the number of nonterminals that it can shrink to, in one step or more. Where
no nonterminal derives itself, the rank goes down with each step, and it is below the number of
nonterminals.

After `k` passes over a span whose shorter spans are complete, the trees from nonterminals of a rank
below `k` are in the chart: a child over the whole span has a lower rank, so it was found earlier. So
the span is complete after as many passes as there are nonterminals, and the next pass adds nothing,
since the trees of a chart are derivation trees. If a pass adds nothing earlier than that, the span is
complete as well, by induction on the trees.

`Passes` is the loop without a number of passes given beforehand. It stops in time (`exists_passes`),
so `saturate` with its number does the same (`Passes.saturate_eq`).
-/

namespace RegularLanguages

namespace Grammar

variable {g : Grammar}

/-! ## Ranks -/

open Classical in
/-- The nonterminals that the given one can shrink to. -/
noncomputable def below (g : Grammar) (id : Nat) : Finset Nat :=
  (Finset.range g.nonterminals.length).filter
    (Relation.TransGen (ShrinksTo g.productions g.nullable) id)

theorem mem_below {id id' : Nat} :
    id' ∈ g.below id ↔ id' < g.nonterminals.length ∧
      Relation.TransGen (ShrinksTo g.productions g.nullable) id id' := by
  simp only [below, Finset.mem_filter, Finset.mem_range]

/-- How many nonterminals the given one can shrink to. -/
noncomputable def rank (g : Grammar) (id : Nat) : Nat := (g.below id).card

theorem Checked.rank_lt_of_shrinksTo (hg : g.Checked) {a b : Nat}
    (h : ShrinksTo g.productions g.nullable a b) : g.rank b < g.rank a := by
  refine Finset.card_lt_card ⟨fun id hid => ?_, fun hsub => ?_⟩
  · obtain ⟨hlt, hleads⟩ := mem_below.mp hid
    exact mem_below.mpr ⟨hlt, .head h hleads⟩
  · have hb := mem_below.mpr ⟨(hg.bounded.lt_of_shrinksTo h).2, .single h⟩
    exact hg.acyclic b (mem_below.mp (hsub hb)).2

theorem Checked.rank_lt_length (hg : g.Checked) {id : Nat} (hid : id < g.nonterminals.length) :
    g.rank id < g.nonterminals.length := by
  have hproper : g.below id ⊂ Finset.range g.nonterminals.length := by
    refine ⟨fun id' hid' => Finset.mem_range.mpr (mem_below.mp hid').1, fun hsub => ?_⟩
    exact hg.acyclic id (mem_below.mp (hsub (Finset.mem_range.mpr hid))).2
  have hcard := Finset.card_lt_card hproper
  rwa [Finset.card_range] at hcard

theorem Bounded.lt_of_derives {count : Nat} (hb : Bounded g.productions count) {id : Nat}
    {t : ParseTree} (h : Derives g.productions (.nonterminal id) t) : id < count := by
  obtain ⟨p, hp, -, rfl, -⟩ := h.exists_production
  exact (hb p hp).1

end Grammar

namespace Chart

variable {g : Grammar} {word : Array Char} {chart chart' result result' : Chart} {i j n n' : Nat}

/-! ## Growth -/

/-- The second chart has all trees of the first. -/
def Grows (chart chart' : Chart) : Prop :=
  ∀ i j id t, t ∈ chart.cell i j id → t ∈ chart'.cell i j id

theorem grows_pass : Grows chart (pass g word i j chart).chart :=
  fun _ _ _ _ ht => mem_cell_pass.mpr (Or.inl ht)

theorem Complete.mono (h : Complete g word chart i j) (hgrows : Grows chart chart') :
    Complete g word chart' i j :=
  fun id t ht hspan => hgrows _ _ _ _ (h id t ht hspan)

theorem CompleteWithin.mono (h : CompleteWithin g word chart i j) (hgrows : Grows chart chart') :
    CompleteWithin g word chart' i j :=
  fun a b ha hb hproper => (h a b ha hb hproper).mono hgrows

/-- What every pass keeps, the repeated passes keep. -/
theorem saturate_induction {motive : Chart → Prop}
    (hpass : ∀ chart, motive chart → motive (pass g word i j chart).chart) (n : Nat)
    (h : motive chart) : motive (saturate g word i j n chart) := by
  induction n generalizing chart with
  | zero => exact h
  | succ n ih =>
    rw [saturate]
    split
    · exact ih (hpass chart h)
    · exact hpass chart h

/-! ## Completeness of a span -/

/-- The trees over the span from nonterminals of a rank below `k` are in the chart. -/
def FoundBelow (g : Grammar) (word : Array Char) (chart : Chart) (i j k : Nat) : Prop :=
  ∀ id t, Derives g.productions (.nonterminal id) t → Spans word i t.leaves j → g.rank id < k →
    t ∈ chart.cell i j id

/-- **One more pass finds the trees of one more rank.** -/
theorem FoundBelow.pass {k : Nat} (hg : g.Checked) (hshort : CompleteWithin g word chart i j)
    (h : FoundBelow g word chart i j k) :
    FoundBelow g word (pass g word i j chart).chart i j (k + 1) := by
  intro id t ht hspan hrank
  obtain ⟨p, hp, children, rfl, rfl, hchildren⟩ := ht.exists_production
  rw [ParseTree.leaves_node] at hspan
  have hrow : Row chart word p.items i children j := by
    refine row_of_children hg hshort hp hchildren hspan fun id' t' _ ht' hspan' hshrinks => ?_
    have hlower := hg.rank_lt_of_shrinksTo hshrinks
    exact h id' t' ht' hspan' (by omega)
  exact mem_cell_pass.mpr (Or.inr ⟨rfl, rfl,
    (mem_derivations hspan.le).mpr ⟨p, hp, children, hrow, rfl, rfl⟩⟩)

/-- A pass that adds nothing finds the span complete. -/
theorem complete_of_not_grown (hg : g.Checked) (hshort : CompleteWithin g word chart i j)
    (hgrown : (pass g word i j chart).grown = false) : Complete g word chart i j := by
  intro id t
  induction t using ParseTree.recOnChildren generalizing id with
  | leaf c =>
    intro ht
    cases ht
  | node number kind children ih =>
    intro ht hspan
    obtain ⟨p, hp, children', rfl, heq, hchildren⟩ := ht.exists_production
    obtain ⟨rfl, rfl, rfl⟩ := ParseTree.node.inj heq
    rw [ParseTree.leaves_node] at hspan
    have hrow : Row chart word p.items i children j :=
      row_of_children hg hshort hp hchildren hspan fun id' t' hmem ht' hspan' _ =>
        ih t' hmem id' ht' hspan'
    exact mem_cell_of_not_grown hgrown _
      ((mem_derivations hspan.le).mpr ⟨p, hp, children, hrow, rfl, rfl⟩)

theorem complete_of_foundBelow {k : Nat} (hg : g.Checked) (hk : g.nonterminals.length ≤ k)
    (h : FoundBelow g word chart i j k) : Complete g word chart i j := by
  intro id t ht hspan
  have hrank := hg.rank_lt_length (hg.bounded.lt_of_derives ht)
  exact h id t ht hspan (by omega)

/-! ## The loop over a span -/

/-- The loop over a span: from the first chart it makes the given number of passes, the last of which
adds nothing, and leaves the second chart. -/
inductive Passes (g : Grammar) (word : Array Char) (i j : Nat) : Chart → Nat → Chart → Prop
  | last {chart : Chart} (h : (pass g word i j chart).grown = false) :
      Passes g word i j chart 1 (pass g word i j chart).chart
  | again {chart result : Chart} {n : Nat} (h : (pass g word i j chart).grown = true)
      (hrest : Passes g word i j (pass g word i j chart).chart n result) :
      Passes g word i j chart (n + 1) result

/-- The loop makes one run at most. -/
theorem Passes.unique (h : Passes g word i j chart n result)
    (h' : Passes g word i j chart n' result') : n' = n ∧ result' = result := by
  induction h generalizing n' with
  | last hstop =>
    cases h' with
    | last => exact ⟨rfl, rfl⟩
    | again hgrown => simp [hstop] at hgrown
  | again hgrown _ ih =>
    cases h' with
    | last hstop => simp [hgrown] at hstop
    | again _ hrest =>
      obtain ⟨rfl, rfl⟩ := ih hrest
      exact ⟨rfl, rfl⟩

/-- A number of passes given beforehand changes nothing if the loop needs no more. -/
theorem Passes.saturate_eq (h : Passes g word i j chart n result) {limit : Nat} (hle : n ≤ limit) :
    saturate g word i j limit chart = result := by
  induction h generalizing limit with
  | last hstop =>
    obtain ⟨limit, rfl⟩ := Nat.exists_eq_succ_of_ne_zero (show limit ≠ 0 by omega)
    simp [saturate, hstop]
  | again hgrown _ ih =>
    obtain ⟨limit, rfl⟩ := Nat.exists_eq_succ_of_ne_zero (show limit ≠ 0 by omega)
    simp only [saturate, hgrown, if_true]
    exact ih (by omega)

/-- A pass over a complete span adds nothing. -/
theorem Complete.not_grown (h : Complete g word chart i j) (hsound : Sound g word chart)
    (hij : i ≤ j) : (pass g word i j chart).grown = false := by
  refine not_grown_of_mem_cell rfl ?_
  rintro ⟨id, t⟩ hfound
  obtain ⟨p, hp, children, hrow, rfl, rfl⟩ := (mem_derivations hij).mp hfound
  obtain ⟨hchildren, hspan⟩ := hsound.derives_of_row hrow
  exact h p.lhs _ (.node hp hchildren) (by rwa [ParseTree.leaves_node])

theorem exists_passes_of_foundBelow {k m : Nat} (hg : g.Checked) (hij : i ≤ j)
    (hsound : Sound g word chart) (hshort : CompleteWithin g word chart i j)
    (h : FoundBelow g word chart i j k) (hk : g.nonterminals.length ≤ k + m) :
    ∃ n ≤ m + 1, ∃ result, Passes g word i j chart n result := by
  induction m generalizing chart k with
  | zero =>
    have hcomplete := complete_of_foundBelow hg hk h
    exact ⟨1, Nat.le_refl _, _, .last (hcomplete.not_grown hsound hij)⟩
  | succ m ih =>
    by_cases hgrown : (pass g word i j chart).grown = true
    · obtain ⟨n, hn, result, hpasses⟩ :=
        ih (hsound.pass hij) (hshort.mono grows_pass) (h.pass hg hshort) (by omega)
      exact ⟨n + 1, by omega, result, .again hgrown hpasses⟩
    · exact ⟨1, by omega, _, .last (Bool.eq_false_iff.mpr hgrown)⟩

/-- **The loop over a span stops** after one pass more than there are nonterminals at the latest. -/
theorem exists_passes (hg : g.Checked) (hij : i ≤ j) (hsound : Sound g word chart)
    (hshort : CompleteWithin g word chart i j) :
    ∃ n ≤ passBound g, ∃ result, Passes g word i j chart n result := by
  -- no rank is below 0
  have hnone : FoundBelow g word chart i j 0 := fun _ _ _ _ hrank => absurd hrank (Nat.not_lt_zero _)
  exact exists_passes_of_foundBelow hg hij hsound hshort hnone (by omega)

theorem Passes.complete (hg : g.Checked) (hshort : CompleteWithin g word chart i j)
    (h : Passes g word i j chart n result) : Complete g word result i j := by
  induction h with
  | last hstop => exact (complete_of_not_grown hg hshort hstop).mono grows_pass
  | again _ _ ih => exact ih (hshort.mono grows_pass)

/-- **The passes over a span make it complete**, if the shorter spans within it are. -/
theorem complete_saturate (hg : g.Checked) (hij : i ≤ j) (hsound : Sound g word chart)
    (hshort : CompleteWithin g word chart i j) :
    Complete g word (saturate g word i j (passBound g) chart) i j := by
  obtain ⟨n, hn, result, hpasses⟩ := exists_passes hg hij hsound hshort
  rw [hpasses.saturate_eq hn]
  exact hpasses.complete hg hshort

end Chart

end RegularLanguages
