import RegularLanguages.Proofs.Grammar.Resolution

/-!
# Rewriting sentential forms

A rule replaces a nonterminal anywhere in a row of symbols, and a nonterminal derives what such steps
make of it. This is the textbook meaning of a grammar. It knows neither trees nor nullable
nonterminals.

A derivation is read backwards, one step at a time. A row that derives a single nonterminal holds one
symbol that leads there by unit steps, and all others vanish (`Collapses.of_rewrites`). So a
nonterminal derives itself exactly if it lies on a cycle of unit steps (`derivesItself_iff`).
-/

namespace RegularLanguages.Grammar

variable {rules : List Rule} {u v : List Symbol} {a b : String}

/-- One rule is applied at one place of a row of symbols. -/
def Rewrites (rules : List Rule) (u v : List Symbol) : Prop :=
  ∃ rule ∈ rules, ∃ before after, u = before ++ .nonterminal rule.lhs :: after ∧
    v = before ++ (rule.rhs ++ after)

/-- The nonterminal derives itself in one step or more. -/
def DerivesItself (rules : List Rule) (name : String) : Prop :=
  Relation.TransGen (Rewrites rules) [.nonterminal name] [.nonterminal name]

/-- The symbol has a derivation tree without leaves. -/
def Leafless (rules : List Rule) (symbol : Symbol) : Prop :=
  ∃ t, Derivation rules symbol t ∧ t.leaves = []

/-! ## Steps in a context -/

theorem Rewrites.context (h : Rewrites rules u v) (before after : List Symbol) :
    Rewrites rules (before ++ (u ++ after)) (before ++ (v ++ after)) := by
  obtain ⟨rule, hrule, left, right, rfl, rfl⟩ := h
  exact ⟨rule, hrule, before ++ left, right ++ after, by simp, by simp⟩

theorem reflTransGen_context (h : Relation.ReflTransGen (Rewrites rules) u v)
    (before after : List Symbol) :
    Relation.ReflTransGen (Rewrites rules) (before ++ (u ++ after)) (before ++ (v ++ after)) :=
  h.lift (fun w => before ++ (w ++ after)) fun _ _ hstep => Rewrites.context hstep before after

theorem rewrites_rule {rule : Rule} (hrule : rule ∈ rules) :
    Rewrites rules [.nonterminal rule.lhs] rule.rhs :=
  ⟨rule, hrule, [], [], rfl, by simp⟩

/-! ## Rows that vanish -/

/-- A row whose symbols vanish one by one vanishes. -/
theorem reflTransGen_nil
    (h : ∀ symbol ∈ u, Relation.ReflTransGen (Rewrites rules) [symbol] []) :
    Relation.ReflTransGen (Rewrites rules) u [] := by
  induction u with
  | nil => exact .refl
  | cons symbol rest ih =>
    obtain ⟨hsymbol, hrest⟩ := List.forall_mem_cons.mp h
    exact (reflTransGen_context hsymbol [] rest).trans (ih hrest)

theorem derives_nil_of_leaves_nil (t : ParseTree) :
    ∀ symbol, Derivation rules symbol t → t.leaves = [] →
      Relation.ReflTransGen (Rewrites rules) [symbol] [] := by
  induction t using ParseTree.recOnChildren with
  | leaf c =>
    intro symbol _ hleaves
    cases hleaves
  | node i kind children ih =>
    intro symbol hderivation hleaves
    cases hderivation with
    | @node _ rule _ hrule hchildren =>
      rw [ParseTree.leaves_node, List.flatMap_eq_nil_iff] at hleaves
      refine .head (rewrites_rule (List.mem_of_getElem? hrule))
        (reflTransGen_nil fun symbol hsymbol => ?_)
      obtain ⟨t, ht, htree⟩ := exists_of_forall₂_of_mem hchildren hsymbol
      exact ih t ht symbol htree (hleaves t ht)

theorem Leafless.derives_nil {symbol : Symbol} (h : Leafless rules symbol) :
    Relation.ReflTransGen (Rewrites rules) [symbol] [] := by
  obtain ⟨t, ht, hleaves⟩ := h
  exact derives_nil_of_leaves_nil t symbol ht hleaves

theorem exists_leafless_children (h : ∀ symbol ∈ u, Leafless rules symbol) :
    ∃ children, List.Forall₂ (Derivation rules) u children ∧
      children.flatMap ParseTree.leaves = [] := by
  induction u with
  | nil => exact ⟨[], .nil, rfl⟩
  | cons symbol rest ih =>
    obtain ⟨⟨t, ht, hleaves⟩, hrest⟩ := List.forall_mem_cons.mp h
    obtain ⟨children, hchildren, hempty⟩ := ih hrest
    exact ⟨t :: children, .cons ht hchildren, by rw [List.flatMap_cons, hleaves, hempty]; rfl⟩

/-- A left side is leafless if all symbols on the right are. -/
theorem leafless_lhs {rule : Rule} (hrule : rule ∈ rules)
    (h : ∀ symbol ∈ rule.rhs, Leafless rules symbol) : Leafless rules (.nonterminal rule.lhs) := by
  obtain ⟨i, hi⟩ := List.mem_iff_getElem?.mp hrule
  obtain ⟨children, hchildren, hempty⟩ := exists_leafless_children h
  exact ⟨_, .node hi hchildren, by rw [ParseTree.leaves_node, hempty]⟩

/-! ## Rows that collapse to one nonterminal -/

theorem unitStep_iff :
    UnitStep rules a b ↔ ∃ rule ∈ rules, rule.lhs = a ∧ ∃ before after,
      rule.rhs = before ++ .nonterminal b :: after ∧
        (∀ symbol ∈ before, Leafless rules symbol) ∧ ∀ symbol ∈ after, Leafless rules symbol := by
  simp only [UnitStep, Leafless, List.forall_mem_append]

theorem UnitStep.derives (h : UnitStep rules a b) :
    Relation.TransGen (Rewrites rules) [.nonterminal a] [.nonterminal b] := by
  obtain ⟨rule, hrule, rfl, before, after, hrhs, hbefore, hafter⟩ := unitStep_iff.mp h
  have hleft := reflTransGen_context (reflTransGen_nil fun s hs => (hbefore s hs).derives_nil) []
    (.nonterminal b :: after)
  have hright := reflTransGen_context (reflTransGen_nil fun s hs => (hafter s hs).derives_nil)
    [.nonterminal b] []
  simp only [List.nil_append, List.append_nil, List.singleton_append] at hleft hright
  refine .head' (rewrites_rule hrule) ?_
  rw [hrhs]
  exact hleft.trans hright

/-- One symbol of the row leads to the nonterminal by unit steps, and the others are leafless. -/
def Collapses (rules : List Rule) (a : String) : List Symbol → Prop
  | [] => False
  | symbol :: rest =>
    (∃ b, symbol = .nonterminal b ∧ Relation.ReflTransGen (UnitStep rules) b a) ∧
        (∀ s ∈ rest, Leafless rules s) ∨
      Leafless rules symbol ∧ Collapses rules a rest

theorem collapses_append :
    Collapses rules a (u ++ v) ↔
      Collapses rules a u ∧ (∀ s ∈ v, Leafless rules s) ∨
        (∀ s ∈ u, Leafless rules s) ∧ Collapses rules a v := by
  induction u with
  | nil => simp [Collapses]
  | cons symbol rest ih =>
    simp only [List.cons_append, Collapses, ih, List.forall_mem_append, List.forall_mem_cons,
      or_and_right, and_or_left, and_assoc, or_assoc]

theorem Collapses.exists_split (h : Collapses rules a u) :
    ∃ before b after, u = before ++ .nonterminal b :: after ∧
      (∀ s ∈ before, Leafless rules s) ∧ (∀ s ∈ after, Leafless rules s) ∧
        Relation.ReflTransGen (UnitStep rules) b a := by
  induction u with
  | nil => cases h
  | cons symbol rest ih =>
    rcases h with ⟨⟨b, rfl, hleads⟩, hrest⟩ | ⟨hsymbol, hcollapses⟩
    · exact ⟨[], b, rest, rfl, by simp, hrest, hleads⟩
    · obtain ⟨before, b, after, rfl, hbefore, hafter, hleads⟩ := ih hcollapses
      exact ⟨symbol :: before, b, after, rfl, List.forall_mem_cons.mpr ⟨hsymbol, hbefore⟩, hafter,
        hleads⟩

/-- If a right side collapses, so does the left side, by one unit step more. -/
theorem Collapses.exists_unitStep {rule : Rule} (hrule : rule ∈ rules)
    (h : Collapses rules a rule.rhs) :
    ∃ b, UnitStep rules rule.lhs b ∧ Relation.ReflTransGen (UnitStep rules) b a := by
  obtain ⟨before, b, after, hrhs, hbefore, hafter, hleads⟩ := h.exists_split
  exact ⟨b, unitStep_iff.mpr ⟨rule, hrule, rfl, before, after, hrhs, hbefore, hafter⟩, hleads⟩

/-- **A step is undone in front of a collapse.** The replaced nonterminal is leafless if its right
side vanishes, and leads to the kept symbol if that one stands in its right side. -/
theorem Collapses.of_rewrites (hstep : Rewrites rules u v) (h : Collapses rules a v) :
    Collapses rules a u := by
  obtain ⟨rule, hrule, left, right, rfl, rfl⟩ := hstep
  rw [collapses_append, List.forall_mem_append, collapses_append] at h
  rw [collapses_append, List.forall_mem_cons]
  rcases h with ⟨hleft, hrhs, hright⟩ | ⟨hleft, ⟨hrhs, hright⟩ | ⟨hrhs, hright⟩⟩
  · exact Or.inl ⟨hleft, leafless_lhs hrule hrhs, hright⟩
  · obtain ⟨b, hunit, hleads⟩ := hrhs.exists_unitStep hrule
    exact Or.inr ⟨hleft, Or.inl ⟨⟨rule.lhs, rfl, .head hunit hleads⟩, hright⟩⟩
  · exact Or.inr ⟨hleft, Or.inr ⟨leafless_lhs hrule hrhs, hright⟩⟩

theorem collapses_of_derives (h : Relation.ReflTransGen (Rewrites rules) u [.nonterminal a]) :
    Collapses rules a u := by
  induction h using Relation.ReflTransGen.head_induction_on with
  | refl => exact Or.inl ⟨⟨a, rfl, .refl⟩, by simp⟩
  | head hstep _ ih => exact ih.of_rewrites hstep

/-- **A nonterminal derives itself if and only if it lies on a cycle of unit steps.** -/
theorem derivesItself_iff :
    DerivesItself rules a ↔ Relation.TransGen (UnitStep rules) a a := by
  constructor
  · intro h
    obtain ⟨u, hstep, hrest⟩ := Relation.TransGen.head'_iff.mp h
    obtain ⟨rule, hrule, before, after, heq, rfl⟩ := hstep
    -- the left side of the rule is all there is to replace
    obtain ⟨rfl, hlhs, rfl⟩ : before = [] ∧ a = rule.lhs ∧ after = [] := by
      cases before with
      | nil => simpa using heq
      | cons _ _ => simp at heq
    rw [List.nil_append, List.append_nil] at hrest
    obtain ⟨b, hunit, hleads⟩ := (collapses_of_derives hrest).exists_unitStep hrule
    exact .head' (hlhs ▸ hunit) hleads
  · intro h
    have hsteps : UnitStep rules ≤ fun b c =>
        Relation.TransGen (Rewrites rules) [.nonterminal b] [.nonterminal c] :=
      fun _ _ hunit => UnitStep.derives hunit
    exact Relation.TransGen.lift' (fun b => [Symbol.nonterminal b]) hsteps a a h

end RegularLanguages.Grammar
