import RegularLanguages.Proofs.Grammar.Resolution
import RegularLanguages.Proofs.Grammar.Row

/-!
# One pass over a span

A pass adds to the cells of its span the trees that the productions give by the trees in the chart,
and changes nothing else. It keeps two properties of a chart: its trees are derivation trees over
their spans (`Sound`), and no cell lists a tree twice (`Distinct`).

Whether a tree is found by a pass depends on its children. A child over a shorter span is in the
chart, since the shorter spans are complete. If a child is over the whole span, its siblings are
empty; then the nonterminal of the production can shrink to that of the child (`row_of_children`).
-/

namespace RegularLanguages.Chart

variable {g : Grammar} {word : Array Char} {chart : Chart} {i j : Nat}

/-! ## Insertion -/

theorem mem_cell_insert {state : Progress} {found : Nat × ParseTree} {a b id : Nat}
    {t : ParseTree} :
    t ∈ (insert i j state found).chart.cell a b id ↔
      t ∈ state.chart.cell a b id ∨ a = i ∧ b = j ∧ (id, t) = found := by
  obtain ⟨id', t'⟩ := found
  unfold insert
  split
  · next hmem =>
    constructor
    · exact Or.inl
    · rintro (h | ⟨rfl, rfl, heq⟩)
      · exact h
      · obtain ⟨rfl, rfl⟩ := Prod.mk.inj heq
        exact hmem
  · rw [cell_push]
    split
    · next heq =>
      obtain ⟨rfl, rfl, rfl⟩ := heq
      simp
    · next hne =>
      constructor
      · exact Or.inl
      · rintro (h | ⟨rfl, rfl, heq⟩)
        · exact h
        · exact absurd ⟨rfl, rfl, (Prod.mk.inj heq).1.symm⟩ hne

theorem mem_cell_foldl_insert {found : List (Nat × ParseTree)} {state : Progress} {a b id : Nat}
    {t : ParseTree} :
    t ∈ (found.foldl (insert i j) state).chart.cell a b id ↔
      t ∈ state.chart.cell a b id ∨ a = i ∧ b = j ∧ (id, t) ∈ found := by
  induction found generalizing state with
  | nil => simp
  | cons first rest ih =>
    rw [List.foldl_cons, ih, mem_cell_insert, List.mem_cons, or_assoc, ← and_or_left, ← and_or_left]

/-- No cell lists a tree twice. -/
def Distinct (chart : Chart) : Prop := ∀ i j id, (chart.cell i j id).Nodup

theorem Distinct.foldl_insert {found : List (Nat × ParseTree)} {state : Progress}
    (h : state.chart.Distinct) : (found.foldl (insert i j) state).chart.Distinct := by
  induction found generalizing state with
  | nil => exact h
  | cons first rest ih =>
    rw [List.foldl_cons]
    refine ih fun a b id => ?_
    unfold insert
    split
    · exact h a b id
    · next hnot =>
      rw [cell_push]
      split
      · exact List.nodup_append.mpr ⟨h _ _ _, List.nodup_singleton _, fun t ht u hu htu => by
          obtain rfl := List.mem_singleton.mp hu
          exact hnot (htu ▸ ht)⟩
      · exact h a b id

theorem grown_foldl_insert {found : List (Nat × ParseTree)} {state : Progress}
    (h : state.grown = true) : (found.foldl (insert i j) state).grown = true := by
  induction found generalizing state with
  | nil => exact h
  | cons first rest ih =>
    rw [List.foldl_cons]
    refine ih ?_
    unfold insert
    split
    · exact h
    · rfl

/-- If nothing was added, everything was there. -/
theorem mem_cell_of_not_grown {found : List (Nat × ParseTree)} {state : Progress}
    (h : (found.foldl (insert i j) state).grown = false) :
    ∀ f ∈ found, f.2 ∈ state.chart.cell i j f.1 := by
  induction found generalizing state with
  | nil =>
    intro f hf
    cases hf
  | cons first rest ih =>
    rw [List.foldl_cons] at h
    by_cases hmem : first.2 ∈ state.chart.cell i j first.1
    · have hsame : insert i j state first = state := if_pos hmem
      rw [hsame] at h
      exact List.forall_mem_cons.mpr ⟨hmem, ih h⟩
    · -- an insertion cannot be taken back
      have hgrown : (insert i j state first).grown = true := by rw [insert, if_neg hmem]
      rw [grown_foldl_insert hgrown] at h
      cases h

/-- If everything was there, nothing is added. -/
theorem not_grown_of_mem_cell {found : List (Nat × ParseTree)} {state : Progress}
    (hstate : state.grown = false) (h : ∀ f ∈ found, f.2 ∈ state.chart.cell i j f.1) :
    (found.foldl (insert i j) state).grown = false := by
  induction found with
  | nil => exact hstate
  | cons first rest ih =>
    obtain ⟨hfirst, hrest⟩ := List.forall_mem_cons.mp h
    have hsame : insert i j state first = state := if_pos hfirst
    rw [List.foldl_cons, hsame]
    exact ih hrest

/-! ## A pass -/

theorem mem_derivations (hij : i ≤ j) {id : Nat} {t : ParseTree} :
    (id, t) ∈ derivations g word chart i j ↔
      ∃ p ∈ g.productions, ∃ children, Row chart word p.items i children j ∧
        p.lhs = id ∧ t = .node p.rule p.kind children := by
  simp only [derivations, List.mem_flatMap, List.mem_map, mem_childRows _ hij, List.reverse_nil,
    List.nil_append, Prod.mk.injEq]
  constructor
  · rintro ⟨p, hp, children, ⟨_, hrow, rfl⟩, rfl, rfl⟩
    exact ⟨p, hp, children, hrow, rfl, rfl⟩
  · rintro ⟨p, hp, children, hrow, rfl, rfl⟩
    exact ⟨p, hp, children, ⟨children, hrow, rfl⟩, rfl, rfl⟩

/-- **A pass adds the trees that the productions give.** -/
theorem mem_cell_pass {a b id : Nat} {t : ParseTree} :
    t ∈ (pass g word i j chart).chart.cell a b id ↔
      t ∈ chart.cell a b id ∨ a = i ∧ b = j ∧ (id, t) ∈ derivations g word chart i j :=
  mem_cell_foldl_insert

theorem Distinct.pass (h : chart.Distinct) : (pass g word i j chart).chart.Distinct :=
  h.foldl_insert

/-- The trees in the chart are derivation trees over their spans. -/
def Sound (g : Grammar) (word : Array Char) (chart : Chart) : Prop :=
  ∀ i j id t, t ∈ chart.cell i j id →
    Derives g.productions (.nonterminal id) t ∧ Spans word i t.leaves j

/-- A row of trees from a sound chart is a row of derivation trees over the span. -/
theorem Sound.derives_of_row (h : Sound g word chart) {items : List Item} {pos stop : Nat}
    {ts : List ParseTree} (hrow : Row chart word items pos ts stop) :
    List.Forall₂ (Derives g.productions) items ts ∧
      Spans word pos (ts.flatMap ParseTree.leaves) stop := by
  induction hrow with
  | nil pos => exact ⟨.nil, spans_nil.mpr rfl⟩
  | @terminal c rest pos stop ts hc _ ih =>
    refine ⟨.cons (.leaf c) ih.1, ?_⟩
    rw [List.flatMap_cons, spans_append]
    exact ⟨spans_singleton.mpr ⟨rfl, hc⟩, ih.2⟩
  | @nonterminal id rest pos mid stop t ts _ ht _ ih =>
    obtain ⟨hderives, hspan⟩ := h _ _ _ _ ht
    refine ⟨.cons hderives ih.1, ?_⟩
    obtain rfl := hspan.1
    rw [List.flatMap_cons, spans_append]
    exact ⟨hspan, ih.2⟩

theorem Sound.pass (h : Sound g word chart) (hij : i ≤ j) :
    Sound g word (pass g word i j chart).chart := by
  intro a b id t ht
  rcases mem_cell_pass.mp ht with ht | ⟨rfl, rfl, ht⟩
  · exact h a b id t ht
  · obtain ⟨p, hp, children, hrow, rfl, rfl⟩ := (mem_derivations hij).mp ht
    obtain ⟨hchildren, hspan⟩ := h.derives_of_row hrow
    exact ⟨.node hp hchildren, by rwa [ParseTree.leaves_node]⟩

/-! ## Which trees a pass finds -/

/-- All derivation trees over the span are in the chart. -/
def Complete (g : Grammar) (word : Array Char) (chart : Chart) (i j : Nat) : Prop :=
  ∀ id t, Derives g.productions (.nonterminal id) t → Spans word i t.leaves j →
    t ∈ chart.cell i j id

/-- All spans within the given one, except for the span itself, are complete. -/
def CompleteWithin (g : Grammar) (word : Array Char) (chart : Chart) (i j : Nat) : Prop :=
  ∀ a b, i ≤ a → b ≤ j → a ≠ i ∨ b ≠ j → Complete g word chart a b

/-- Derivation trees side by side are a row, if each tree from a nonterminal is in the chart. -/
theorem row_of_forall₂ {items : List Item} {children : List ParseTree} {pos stop : Nat}
    (hchildren : List.Forall₂ (Derives g.productions) items children)
    (hspan : Spans word pos (children.flatMap ParseTree.leaves) stop)
    (hfound : ∀ before id after tsBefore t tsAfter a b, items = before ++ .nonterminal id :: after →
      children = tsBefore ++ t :: tsAfter → List.Forall₂ (Derives g.productions) before tsBefore →
      Derives g.productions (.nonterminal id) t →
      List.Forall₂ (Derives g.productions) after tsAfter →
      a = pos + (tsBefore.flatMap ParseTree.leaves).length → Spans word a t.leaves b →
      t ∈ chart.cell a b id) :
    Row chart word items pos children stop := by
  induction hchildren generalizing pos with
  | nil =>
    obtain rfl := spans_nil.mp hspan
    exact .nil _
  | @cons item t rest ts hhead hrest ih =>
    rw [List.flatMap_cons, spans_append] at hspan
    obtain ⟨hspanHead, hspanRest⟩ := hspan
    have hrow : Row chart word rest (pos + t.leaves.length) ts stop := by
      refine ih hspanRest fun before id after tsBefore u tsAfter a b hitems hts hbefore hu hafter
        ha hspan => ?_
      subst hitems hts
      refine hfound (item :: before) id after (t :: tsBefore) u tsAfter a b rfl rfl
        (.cons hhead hbefore) hu hafter ?_ hspan
      rw [ha, List.flatMap_cons, List.length_append, Nat.add_assoc]
    cases item with
    | terminal c =>
      obtain rfl := hhead.eq_leaf
      exact .terminal (spans_singleton.mp hspanHead).2 hrow
    | nonterminal id =>
      refine .nonterminal (Nat.le_add_right _ _) ?_ hrow
      exact hfound [] id rest [] t ts pos _ rfl rfl .nil hhead hrest rfl hspanHead

/-- A row of items with leafless trees is nullable. -/
theorem all_isNullableIn_of_forall₂ {known : List Nat} {items : List Item}
    {children : List ParseTree} (hclosed : Grammar.NullableClosed g.productions known)
    (h : List.Forall₂ (Derives g.productions) items children)
    (hleaves : children.flatMap ParseTree.leaves = []) :
    items.all (Item.isNullableIn known) = true := by
  rw [List.flatMap_eq_nil_iff] at hleaves
  rw [List.all_eq_true]
  intro item hitem
  obtain ⟨t, ht, hderives⟩ := exists_of_forall₂_of_mem h hitem
  exact hclosed.isNullableIn t item hderives (hleaves t ht)

/-- A production shrinks to an item whose siblings have leafless trees. -/
theorem shrinksTo_of_siblings (hg : g.Checked) {p : Production} (hp : p ∈ g.productions)
    {before after : List Item} {id : Nat} (hitems : p.items = before ++ .nonterminal id :: after)
    {tsBefore tsAfter : List ParseTree}
    (hbefore : List.Forall₂ (Derives g.productions) before tsBefore)
    (hbeforeNil : tsBefore.flatMap ParseTree.leaves = [])
    (hafter : List.Forall₂ (Derives g.productions) after tsAfter)
    (hafterNil : tsAfter.flatMap ParseTree.leaves = []) :
    Grammar.ShrinksTo g.productions g.nullable p.lhs id := by
  have hclosed : Grammar.NullableClosed g.productions g.nullable := by
    rw [hg.nullable_eq]
    exact Grammar.nullableClosed_nullableAfter hg.bounded
  exact Grammar.shrinksTo_iff.mpr ⟨p, hp, rfl, before, after, hitems,
    all_isNullableIn_of_forall₂ hclosed hbefore hbeforeNil,
    all_isNullableIn_of_forall₂ hclosed hafter hafterNil⟩

/-- **The children of a tree are a row** if the shorter spans are complete and the children over the
whole span, to whose nonterminals the tree's own can shrink, are in the chart. -/
theorem row_of_children (hg : g.Checked) (hshort : CompleteWithin g word chart i j)
    {p : Production} (hp : p ∈ g.productions) {children : List ParseTree}
    (hchildren : List.Forall₂ (Derives g.productions) p.items children)
    (hspan : Spans word i (children.flatMap ParseTree.leaves) j)
    (hfound : ∀ id, ∀ t ∈ children, Derives g.productions (.nonterminal id) t →
      Spans word i t.leaves j → Grammar.ShrinksTo g.productions g.nullable p.lhs id →
      t ∈ chart.cell i j id) :
    Row chart word p.items i children j := by
  refine row_of_forall₂ hchildren hspan fun before id after tsBefore t tsAfter a b hitems hts
    hbefore ht hafter ha hspan' => ?_
  have hj := hspan.1
  have hb := hspan'.1
  rw [hts, List.flatMap_append, List.flatMap_cons, List.length_append, List.length_append] at hj
  by_cases hwhole : a = i ∧ b = j
  · obtain ⟨rfl, rfl⟩ := hwhole
    have hshrinks : Grammar.ShrinksTo g.productions g.nullable p.lhs id :=
      shrinksTo_of_siblings hg hp hitems hbefore (List.eq_nil_of_length_eq_zero (by omega)) hafter
        (List.eq_nil_of_length_eq_zero (by omega))
    have hmem : t ∈ children := by
      rw [hts]
      exact List.mem_append_right _ List.mem_cons_self
    exact hfound id t hmem ht hspan' hshrinks
  · -- over a shorter span everything is found already
    have hproper : a ≠ i ∨ b ≠ j := by
      by_cases hai : a = i
      · exact Or.inr fun hbj => hwhole ⟨hai, hbj⟩
      · exact Or.inl hai
    exact hshort a b (by omega) (by omega) hproper id t ht hspan'

end RegularLanguages.Chart
