import RegularLanguages.Grammar.Draft
import RegularLanguages.Proofs.Grammar.SelfDerivation

/-!
# From drafts to grammars

A grammar that was built from a draft has one production for each rule, and a nonterminal is the
same name or the same number on both sides (`Stands`). So derivation trees over the productions are
derivation trees over the rules (`derives_iff`).

`Checked` is what the chart parser relies on: the numbers are in range, the nullable nonterminals
are known, and no nonterminal derives itself.
-/

namespace RegularLanguages

/-! ## Names -/

theorem Draft.nodup_nonterminals (d : Draft) : d.nonterminals.Nodup := nodup_eraseDups _

theorem Draft.getElem?_nonterminals_zero (d : Draft) : d.nonterminals[0]? = some d.start := by
  rw [nonterminals, List.eraseDups_cons]
  rfl

theorem Draft.mem_nonterminals {d : Draft} {name : String} :
    name ∈ d.nonterminals ↔
      name = d.start ∨ (∃ rule ∈ d.rules, rule.lhs = name) ∨ name ∈ d.declared := by
  simp [nonterminals]

/-! ## Items and symbols -/

/-- The item stands for the symbol: it is the same terminal, or the number of the nonterminal. -/
inductive Stands (names : List String) : Item → Symbol → Prop
  | terminal (c : Char) : Stands names (.terminal c) (.terminal c)
  | nonterminal {id : Nat} {name : String} (h : names[id]? = some name) :
      Stands names (.nonterminal id) (.nonterminal name)

/-- The production is the rule with the given number. -/
structure Resolved (names : List String) (numbered : Rule × Nat) (p : Production) : Prop where
  rule_eq : p.rule = numbered.2
  kind_eq : p.kind = numbered.1.kind
  lhs : names[p.lhs]? = some numbered.1.lhs
  items : List.Forall₂ (Stands names) p.items numbered.1.rhs

namespace Draft

variable {d : Draft} {rule : Rule}

theorem mem_nonterminals_of_defines {name : String} (h : d.defines name = true) :
    name ∈ d.nonterminals := by
  rw [mem_nonterminals]
  simp only [defines, Bool.or_eq_true, List.contains_iff_mem, List.mem_map] at h
  exact Or.inr h

/-- The right side of a rule is resolved symbol by symbol. -/
theorem stands_of_resolveSymbols {symbols : List Symbol} {items : List Item}
    (h : d.resolveSymbols rule symbols = .ok items) :
    List.Forall₂ (Stands d.nonterminals) items symbols := by
  induction symbols generalizing items with
  | nil =>
    obtain rfl := Except.ok.inj h
    exact .nil
  | cons symbol rest ih =>
    cases symbol with
    | terminal c =>
      obtain ⟨items', hrest, rfl⟩ := exists_of_map_eq_ok h
      exact .cons (.terminal c) (ih hrest)
    | nonterminal name =>
      rw [resolveSymbols] at h
      cases hid : d.nonterminals.idxOf? name with
      | none =>
        rw [hid] at h
        cases h
      | some id =>
        simp only [hid] at h
        split at h
        · obtain ⟨items', hrest, rfl⟩ := exists_of_map_eq_ok h
          exact .cons (.nonterminal (getElem?_of_idxOf? hid)) (ih hrest)
        · cases h

/-- A row of symbols can be resolved if its nonterminals are defined. -/
theorem exists_resolveSymbols (rule : Rule) {symbols : List Symbol}
    (h : ∀ name, .nonterminal name ∈ symbols → d.defines name = true) :
    ∃ items, d.resolveSymbols rule symbols = .ok items := by
  induction symbols with
  | nil => exact ⟨[], rfl⟩
  | cons symbol rest ih =>
    obtain ⟨items, hitems⟩ := ih fun name hname => h name (List.mem_cons_of_mem _ hname)
    cases symbol with
    | terminal c => exact ⟨.terminal c :: items, by rw [resolveSymbols, hitems]; rfl⟩
    | nonterminal name =>
      have hdefined := h name List.mem_cons_self
      cases hid : d.nonterminals.idxOf? name with
      | none => exact absurd (mem_nonterminals_of_defines hdefined) (List.idxOf?_eq_none_iff.mp hid)
      | some id =>
        refine ⟨.nonterminal id :: items, ?_⟩
        simp only [resolveSymbols, hid, hdefined, if_true, hitems]
        rfl

theorem resolved_of_resolveRule {number : Nat} {p : Production}
    (hrule : rule ∈ d.rules) (h : d.resolveRule rule number = .ok p) :
    Resolved d.nonterminals (rule, number) p := by
  obtain ⟨items, hitems, rfl⟩ := exists_of_map_eq_ok h
  have hlhs : rule.lhs ∈ d.nonterminals := mem_nonterminals.mpr (Or.inr (Or.inl ⟨rule, hrule, rfl⟩))
  refine ⟨rfl, rfl, ?_, stands_of_resolveSymbols hitems⟩
  cases hid : d.nonterminals.idxOf? rule.lhs with
  | none => exact absurd hlhs (List.idxOf?_eq_none_iff.mp hid)
  | some id => exact getElem?_of_idxOf? hid

/-- Rules become productions one by one. -/
theorem resolved_of_resolveRules {rules : List Rule} {number : Nat} {productions : List Production}
    (hrules : ∀ rule ∈ rules, rule ∈ d.rules) (h : d.resolveRules rules number = .ok productions) :
    List.Forall₂ (Resolved d.nonterminals) (rules.zipIdx number) productions := by
  induction rules generalizing number productions with
  | nil =>
    obtain rfl := Except.ok.inj h
    exact .nil
  | cons rule rest ih =>
    obtain ⟨hrule, hrest⟩ := List.forall_mem_cons.mp hrules
    rw [resolveRules] at h
    cases hp : d.resolveRule rule number with
    | error e =>
      rw [hp] at h
      cases h
    | ok p =>
      rw [hp] at h
      obtain ⟨productions', hproductions, rfl⟩ := exists_of_map_eq_ok h
      exact .cons (resolved_of_resolveRule hrule hp) (ih hrest hproductions)

theorem exists_resolveRules {rules : List Rule} (number : Nat)
    (h : ∀ rule ∈ rules, ∀ name, .nonterminal name ∈ rule.rhs → d.defines name = true) :
    ∃ productions, d.resolveRules rules number = .ok productions := by
  induction rules generalizing number with
  | nil => exact ⟨[], rfl⟩
  | cons rule rest ih =>
    obtain ⟨hrule, hrest⟩ := List.forall_mem_cons.mp h
    obtain ⟨items, hitems⟩ := exists_resolveSymbols rule hrule
    obtain ⟨productions, hproductions⟩ := ih (number + 1) hrest
    refine ⟨⟨number, rule.kind, (d.nonterminals.idxOf? rule.lhs).getD 0, items⟩ :: productions, ?_⟩
    rw [resolveRules, resolveRule, hitems, hproductions]
    rfl

end Draft

/-! ## Checked grammars -/

namespace Grammar

/-- The numbers of a grammar are in range, its nullable nonterminals are known, and no nonterminal
derives itself. -/
structure Checked (g : Grammar) : Prop where
  bounded : Bounded g.productions g.nonterminals.length
  nullable_eq : g.nullable = nullableAfter g.productions g.nonterminals.length
  acyclic : ∀ id, ¬ Relation.TransGen (ShrinksTo g.productions g.nullable) id id

/-- The productions of a grammar are its rules, and a name stands at one place. -/
structure Faithful (g : Grammar) : Prop where
  names_nodup : g.nonterminals.Nodup
  start : g.nonterminals[0]? = some g.start
  resolved : List.Forall₂ (Resolved g.nonterminals) g.rules.zipIdx g.productions

/-- A name has one number. -/
theorem Faithful.idxOf_eq {g : Grammar} (hg : g.Faithful) {name : String} {id : Nat}
    (h : g.nonterminals[id]? = some name) : g.nonterminals.idxOf name = id :=
  ((getElem?_eq_some_iff_idxOf hg.names_nodup).mp h).2.symm

theorem bounded_of_resolved {names : List String} {rules : List (Rule × Nat)}
    {productions : List Production} (h : List.Forall₂ (Resolved names) rules productions) :
    Bounded productions names.length := by
  intro p hp
  obtain ⟨numbered, -, hresolved⟩ := exists_of_forall₂_of_mem h.flip hp
  refine ⟨(List.getElem?_eq_some_iff.mp hresolved.lhs).1, fun id hid => ?_⟩
  obtain ⟨symbol, -, hstands⟩ := exists_of_forall₂_of_mem hresolved.items hid
  cases hstands with
  | nonterminal hname => exact (List.getElem?_eq_some_iff.mp hname).1

end Grammar

namespace Draft

variable {d : Draft} {g : Grammar} {productions : List Production}

theorem faithful_freeze (h : d.resolveRules d.rules 0 = .ok productions) :
    (d.freeze productions).Faithful :=
  ⟨d.nodup_nonterminals, d.getElem?_nonterminals_zero,
    resolved_of_resolveRules (fun _ hrule => hrule) h⟩

/-- A grammar that was built is the frozen draft, and the search found no self derivation. -/
theorem exists_of_build_eq_ok (h : d.build = .ok g) :
    ∃ productions, d.resolveRules d.rules 0 = .ok productions ∧ g = d.freeze productions ∧
      Grammar.selfDerivation? g.nonterminals.length g.productions g.nullable = none := by
  unfold build at h
  cases hproductions : d.resolveRules d.rules 0 with
  | error e =>
    rw [hproductions] at h
    cases h
  | ok productions =>
    simp only [hproductions] at h
    split at h
    · split at h
      · cases h
      · next hnone =>
        obtain rfl := Except.ok.inj h
        exact ⟨productions, rfl, rfl, hnone⟩
    · cases h

theorem faithful_of_build (h : d.build = .ok g) : g.Faithful := by
  obtain ⟨productions, hproductions, rfl, -⟩ := exists_of_build_eq_ok h
  exact faithful_freeze hproductions

theorem checked_of_build (h : d.build = .ok g) : g.Checked := by
  have hbounded := Grammar.bounded_of_resolved (faithful_of_build h).resolved
  obtain ⟨productions, -, rfl, hnone⟩ := exists_of_build_eq_ok h
  exact ⟨hbounded, rfl, Grammar.not_transGen_of_selfDerivation?_eq_none hbounded hnone⟩

theorem rules_of_build (h : d.build = .ok g) : g.rules = d.rules := by
  obtain ⟨productions, -, rfl, -⟩ := exists_of_build_eq_ok h
  rfl

theorem start_of_build (h : d.build = .ok g) : g.start = d.start := by
  obtain ⟨productions, -, rfl, -⟩ := exists_of_build_eq_ok h
  rfl

end Draft

/-! ## Derivation trees -/

namespace Grammar

variable {g : Grammar}

/-- **Trees over the productions are trees over the rules.** -/
theorem Faithful.derives_iff (hg : g.Faithful) (t : ParseTree) :
    ∀ {item : Item} {symbol : Symbol}, Stands g.nonterminals item symbol →
      (Derives g.productions item t ↔ Derivation g.rules symbol t) := by
  induction t using ParseTree.recOnChildren with
  | leaf c =>
    intro item symbol hstands
    constructor
    · intro h
      cases h
      cases hstands
      exact .leaf c
    · intro h
      cases h
      cases hstands
      exact .leaf c
  | node i kind children ih =>
    intro item symbol hstands
    constructor
    · intro h
      cases h with
      | @node p _ hp hchildren =>
        obtain ⟨⟨rule, number⟩, hmem, hresolved⟩ := exists_of_forall₂_of_mem hg.resolved.flip hp
        have hrule := List.mk_mem_zipIdx_iff_getElem?.mp hmem
        cases hstands with
        | nonterminal hname =>
          obtain rfl := Option.some.inj (hname.symm.trans hresolved.lhs)
          rw [hresolved.rule_eq, hresolved.kind_eq]
          refine .node hrule (forall₂_of_forall₂ hresolved.items hchildren ?_)
          exact fun t ht item symbol hstands => (ih t ht hstands).mp
    · intro h
      cases h with
      | @node _ rule _ hrule hchildren =>
        have hmem := List.mk_mem_zipIdx_iff_getElem?.mpr hrule
        obtain ⟨p, hp, hresolved⟩ := exists_of_forall₂_of_mem hg.resolved hmem
        cases hstands with
        | nonterminal hname =>
          -- a name has one number only, so the production is for the item at hand
          obtain rfl := (hg.idxOf_eq hname).symm.trans (hg.idxOf_eq hresolved.lhs)
          have hnode := Derives.node hp
            (forall₂_of_forall₂ hresolved.items.flip hchildren fun t ht symbol item hstands =>
              (ih t ht hstands).mpr)
          rwa [hresolved.rule_eq, hresolved.kind_eq] at hnode

/-! ## Shrinking by name -/

/-- By one rule and trees without leaves, one nonterminal derives another one alone. -/
def UnitStep (rules : List Rule) (a b : String) : Prop :=
  ∃ rule ∈ rules, rule.lhs = a ∧ ∃ before after, rule.rhs = before ++ .nonterminal b :: after ∧
    ∀ symbol ∈ before ++ after, ∃ t, Derivation rules symbol t ∧ t.leaves = []

/-- A nullable item stands for a symbol with a tree without leaves. -/
theorem Faithful.exists_leafless (hg : g.Faithful)
    (hnullable : g.nullable = nullableAfter g.productions g.nonterminals.length)
    {items : List Item} {symbols : List Symbol}
    (hstands : List.Forall₂ (Stands g.nonterminals) items symbols)
    (hall : items.all (Item.isNullableIn g.nullable) = true) :
    ∀ symbol ∈ symbols, ∃ t, Derivation g.rules symbol t ∧ t.leaves = [] := by
  intro symbol hsymbol
  obtain ⟨item, hitem, hstands⟩ := exists_of_forall₂_of_mem hstands.flip hsymbol
  obtain ⟨id, hid, rfl⟩ := all_isNullableIn_iff.mp hall item hitem
  rw [hnullable] at hid
  obtain ⟨t, ht, hleaves⟩ := (mem_nullableAfter_iff (bounded_of_resolved hg.resolved)).mp hid
  exact ⟨t, (hg.derives_iff t hstands).mp ht, hleaves⟩

/-- Shrinking by number is shrinking by name. -/
theorem Faithful.unitStep (hg : g.Faithful)
    (hnullable : g.nullable = nullableAfter g.productions g.nonterminals.length) {a b : Nat}
    (h : ShrinksTo g.productions g.nullable a b) :
    UnitStep g.rules (g.nonterminals.getD a "") (g.nonterminals.getD b "") := by
  obtain ⟨p, hp, rfl, before, after, hitems, hbefore, hafter⟩ := shrinksTo_iff.mp h
  obtain ⟨⟨rule, number⟩, hmem, hresolved⟩ := exists_of_forall₂_of_mem hg.resolved.flip hp
  have hrule := List.mem_of_getElem? (List.mk_mem_zipIdx_iff_getElem?.mp hmem)
  have hstands := hresolved.items
  rw [hitems] at hstands
  obtain ⟨before', symbol, after', hrhs, hbefore', hb, hafter'⟩ :=
    exists_of_forall₂_append_cons hstands
  cases hb with
  | nonterminal hname =>
    rw [List.getD_eq_getElem?_getD, List.getD_eq_getElem?_getD, hresolved.lhs, hname]
    refine ⟨rule, hrule, rfl, before', after', hrhs, List.forall_mem_append.mpr ⟨?_, ?_⟩⟩
    · exact hg.exists_leafless hnullable hbefore' hbefore
    · exact hg.exists_leafless hnullable hafter' hafter

end Grammar

/-- **A draft can be built** if its nonterminals are defined and none derives itself. -/
theorem Draft.exists_build {d : Draft}
    (hdefined : ∀ rule ∈ d.rules, ∀ name, .nonterminal name ∈ rule.rhs → d.defines name = true)
    (hstart : d.defines d.start = true)
    (hacyclic : ∀ name, ¬ Relation.TransGen (Grammar.UnitStep d.rules) name name) :
    ∃ g, d.build = .ok g := by
  obtain ⟨productions, hproductions⟩ := exists_resolveRules 0 hdefined
  have hfaithful := faithful_freeze hproductions
  have hbounded := Grammar.bounded_of_resolved hfaithful.resolved
  rw [build, hproductions]
  simp only [hstart, if_true]
  split
  · next id hcycle =>
    -- a cycle of numbers would be a cycle of names
    have hself := Grammar.transGen_of_selfDerivation?_eq_some hbounded hcycle
    exact absurd (hself.lift _ fun a b h => hfaithful.unitStep rfl h) (hacyclic _)
  · exact ⟨_, rfl⟩

end RegularLanguages
