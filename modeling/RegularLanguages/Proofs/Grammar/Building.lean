import RegularLanguages.Proofs.Grammar.Rewriting

/-!
# Which drafts become grammars

A draft is admissible if everything it uses is defined and no nonterminal derives itself, where to
derive is to rewrite. Building succeeds on the admissible drafts and on no others, and an error names
a fault that the draft has.

The search for self derivations works on numbers. It finds a cycle of numbers if and only if there is
one of names (`Faithful.unitStep`, `Faithful.shrinksTo`), and a cycle of names is a nonterminal that
derives itself (`Grammar.derivesItself_iff`).
-/

namespace RegularLanguages

/-! ## Cycles of names and of numbers -/

namespace Grammar

variable {g : Grammar} {a b : String}

/-- An item that stands for a leafless symbol is nullable. -/
theorem Faithful.all_isNullableIn (hg : g.Faithful) (hchecked : g.Checked) {items : List Item}
    {symbols : List Symbol} (hstands : List.Forall₂ (Stands g.nonterminals) items symbols)
    (h : ∀ symbol ∈ symbols, Leafless g.rules symbol) :
    items.all (Item.isNullableIn g.nullable) = true := by
  have hclosed : NullableClosed g.productions g.nullable :=
    hchecked.nullable_eq ▸ nullableClosed_nullableAfter hchecked.bounded
  rw [List.all_eq_true]
  intro item hitem
  obtain ⟨symbol, hsymbol, hstands⟩ := exists_of_forall₂_of_mem hstands hitem
  obtain ⟨t, ht, hleaves⟩ := h symbol hsymbol
  exact hclosed.isNullableIn t item ((hg.derives_iff t hstands).mpr ht) hleaves

/-- A unit step by name is a step by number. -/
theorem Faithful.shrinksTo (hg : g.Faithful) (hchecked : g.Checked) (h : UnitStep g.rules a b) :
    ShrinksTo g.productions g.nullable (g.nonterminals.idxOf a) (g.nonterminals.idxOf b) := by
  obtain ⟨rule, hrule, rfl, before, after, hrhs, hbefore, hafter⟩ := unitStep_iff.mp h
  obtain ⟨number, hnumber⟩ := List.mem_iff_getElem?.mp hrule
  obtain ⟨p, hp, hresolved⟩ :=
    exists_of_forall₂_of_mem hg.resolved (List.mk_mem_zipIdx_iff_getElem?.mpr hnumber)
  have hstands := hresolved.items.flip
  simp only [hrhs] at hstands
  obtain ⟨before', item, after', hitems, hbefore', hitem, hafter'⟩ :=
    exists_of_forall₂_append_cons hstands
  cases hitem with
  | nonterminal hname =>
    rw [hg.idxOf_eq hresolved.lhs, hg.idxOf_eq hname]
    exact shrinksTo_iff.mpr ⟨p, hp, rfl, before', after', hitems,
      hg.all_isNullableIn hchecked hbefore'.flip hbefore,
      hg.all_isNullableIn hchecked hafter'.flip hafter⟩

theorem not_derivesItself_of_checked (hg : g.Faithful) (hchecked : g.Checked) (name : String) :
    ¬ DerivesItself g.rules name := by
  intro h
  have hsteps : UnitStep g.rules ≤ fun a b =>
      ShrinksTo g.productions g.nullable (g.nonterminals.idxOf a) (g.nonterminals.idxOf b) :=
    fun _ _ hunit => hg.shrinksTo hchecked hunit
  exact hchecked.acyclic _
    (Relation.TransGen.lift g.nonterminals.idxOf hsteps name name (derivesItself_iff.mp h))

end Grammar

/-! ## Faults -/

namespace Draft

variable {d : Draft} {rule : Rule} {e : Error}

/-- The name is the left side of a rule, or declared. -/
def Defined (d : Draft) (name : String) : Prop :=
  (∃ rule ∈ d.rules, rule.lhs = name) ∨ name ∈ d.declared

/-- The nonterminals on the right of the rules and the start symbol are defined, and no nonterminal
derives itself. -/
structure Admissible (d : Draft) : Prop where
  uses : ∀ rule ∈ d.rules, ∀ name, .nonterminal name ∈ rule.rhs → d.Defined name
  start : d.Defined d.start
  proper : ∀ name, ¬ Grammar.DerivesItself d.rules name

/-- The error names a fault of the draft. -/
inductive Fault (d : Draft) : Error → Prop
  | undefinedNonterminal {rule : Rule} {name : String} (hrule : rule ∈ d.rules)
      (hname : .nonterminal name ∈ rule.rhs) (h : ¬ d.Defined name) :
      Fault d (.undefinedNonterminal name rule)
  | undefinedStart (h : ¬ d.Defined d.start) : Fault d (.undefinedStart d.start)
  | selfDerivation {name : String} (h : Grammar.DerivesItself d.rules name) :
      Fault d (.selfDerivation name)

theorem Fault.not_admissible (h : d.Fault e) : ¬ d.Admissible := by
  intro hd
  cases h with
  | undefinedNonterminal hrule hname h => exact h (hd.uses _ hrule _ hname)
  | undefinedStart h => exact h hd.start
  | selfDerivation h => exact hd.proper _ h

theorem Fault.family_eq (h : d.Fault e) : e.family = .ambiguousGrammar := by
  cases h <;> rfl

theorem message_selfDerivation (name : String) :
    (Error.selfDerivation name).message =
      "ambiguous grammar: nonterminal " ++ name ++ " derives itself without consuming input" := by
  have hsplit : "ambiguous grammar: nonterminal " = "ambiguous grammar: " ++ "nonterminal " := by
    decide
  calc (Error.selfDerivation name).message
    _ = "ambiguous grammar: " ++
          ("nonterminal " ++ name ++ " derives itself without consuming input") := by
      unfold Error.message Error.detail
      rfl
    _ = _ := by simp only [hsplit, String.append_assoc]

theorem defines_iff {name : String} : d.defines name = true ↔ d.Defined name := by
  simp [defines, Defined]

/-! ## The checks -/

/-- The check passes and the draft has the property, or its error names a fault of the draft. -/
inductive Judges {α : Type} (d : Draft) (property : Prop) : Except Error α → Prop
  | ok {a : α} (h : property) : Judges d property (.ok a)
  | error {e : Error} (h : d.Fault e) : Judges d property (.error e)

theorem Judges.map {α β : Type} {p q : Prop} {x : Except Error α} (h : d.Judges p x) (hpq : p → q)
    (f : α → β) : d.Judges q (x.map f) := by
  cases h with
  | ok h => exact .ok (hpq h)
  | error h => exact .error h

/-- The symbols of a rule are resolved, from some symbol on. -/
theorem judges_resolveSymbols (hrule : rule ∈ d.rules) {symbols : List Symbol}
    (hsub : symbols ⊆ rule.rhs) :
    d.Judges (∀ name, .nonterminal name ∈ symbols → d.Defined name)
      (d.resolveSymbols rule symbols) := by
  induction symbols with
  | nil => exact .ok (by simp)
  | cons symbol rest ih =>
    obtain ⟨hsymbol, hrest⟩ := List.cons_subset.mp hsub
    cases symbol with
    | terminal c => exact (ih hrest).map (by simp) _
    | nonterminal name =>
      have hfault : ¬ d.Defined name → d.Fault (.undefinedNonterminal name rule) :=
        .undefinedNonterminal hrule hsymbol
      rw [resolveSymbols]
      split
      · split
        · next hdefined =>
          refine (ih hrest).map (fun h other hother => ?_) _
          rcases List.mem_cons.mp hother with heq | hother
          · obtain rfl := Symbol.nonterminal.inj heq
            exact defines_iff.mp hdefined
          · exact h other hother
        · next hundefined => exact .error (hfault (mt defines_iff.mpr hundefined))
      · next hnone =>
        -- a name without a number is not defined
        refine .error (hfault fun hdefined => List.idxOf?_eq_none_iff.mp hnone ?_)
        exact mem_nonterminals_of_defines (defines_iff.mpr hdefined)

theorem judges_resolveRules {rules : List Rule} (hsub : rules ⊆ d.rules) (number : Nat) :
    d.Judges (∀ rule ∈ rules, ∀ name, .nonterminal name ∈ rule.rhs → d.Defined name)
      (d.resolveRules rules number) := by
  induction rules generalizing number with
  | nil => exact .ok (by simp)
  | cons rule rest ih =>
    obtain ⟨hrule, hrest⟩ := List.cons_subset.mp hsub
    have hfirst : d.Judges _ (d.resolveRule rule number) :=
      (judges_resolveSymbols hrule (List.Subset.refl _)).map id _
    rw [resolveRules]
    cases hp : d.resolveRule rule number with
    | error e =>
      rw [hp] at hfirst
      cases hfirst with
      | error h => exact .error h
    | ok p =>
      rw [hp] at hfirst
      cases hfirst with
      | ok h =>
        have hall := ih hrest (number + 1)
        exact hall.map (fun hothers => List.forall_mem_cons.mpr ⟨h, hothers⟩) _

/-- **Building succeeds on an admissible draft, or its error names a fault.** -/
theorem judges_build (d : Draft) : d.Judges d.Admissible d.build := by
  have huses := judges_resolveRules (List.Subset.refl d.rules) 0
  unfold build
  cases hproductions : d.resolveRules d.rules 0 with
  | error e =>
    rw [hproductions] at huses
    cases huses with
    | error h => exact .error h
  | ok productions =>
    rw [hproductions] at huses
    have hfaithful := faithful_freeze hproductions
    have hbounded := Grammar.bounded_of_resolved hfaithful.resolved
    simp only
    split
    · next hstart =>
      split
      · next id hcycle =>
        have hself := Grammar.transGen_of_selfDerivation?_eq_some hbounded hcycle
        refine .error (.selfDerivation (Grammar.derivesItself_iff.mpr ?_))
        exact hself.lift _ fun a b h => hfaithful.unitStep rfl h
      · next hnone =>
        have hchecked : (d.freeze productions).Checked :=
          ⟨hbounded, rfl, Grammar.not_transGen_of_selfDerivation?_eq_none hbounded hnone⟩
        cases huses with
        | ok huses =>
          exact .ok ⟨huses, defines_iff.mp hstart,
            Grammar.not_derivesItself_of_checked hfaithful hchecked⟩
    · next hstart => exact .error (.undefinedStart (mt defines_iff.mpr hstart))

/-- **A draft becomes a grammar if and only if it is admissible.** Otherwise the answer is an
ambiguous grammar, and its cause is a fault of the draft: a nonterminal that is reported to derive
itself does so. -/
theorem exists_build_iff_admissible (d : Draft) :
    ((∃ g, d.build = .ok g) ↔ d.Admissible) ∧
      (¬ d.Admissible → ∃ e, d.build = .error e ∧ e.family = .ambiguousGrammar ∧ d.Fault e) ∧
      ∀ name, d.build = .error (.selfDerivation name) →
        Grammar.DerivesItself d.rules name ∧ (Error.selfDerivation name).message =
          "ambiguous grammar: nonterminal " ++ name ++ " derives itself without consuming input" := by
  have hjudges := judges_build d
  cases hbuild : d.build with
  | ok g =>
    rw [hbuild] at hjudges
    cases hjudges with
    | ok hadmissible =>
      exact ⟨⟨fun _ => hadmissible, fun _ => ⟨g, rfl⟩⟩, fun h => absurd hadmissible h,
        fun _ h => nomatch h⟩
  | error e =>
    rw [hbuild] at hjudges
    cases hjudges with
    | error hfault =>
      have hinadmissible := hfault.not_admissible
      refine ⟨⟨fun ⟨_, h⟩ => (nomatch h), fun h => absurd h hinadmissible⟩,
        fun _ => ⟨e, rfl, hfault.family_eq, hfault⟩, fun name h => ?_⟩
      obtain rfl := Except.error.inj h
      cases hfault with
      | selfDerivation hself =>
        exact ⟨hself, message_selfDerivation _⟩

/-- With `S → ES`, `E → ε` and `S → s`, the start symbol derives itself behind a nonterminal that
vanishes. -/
theorem exists_build_iff_admissible_of_nullable_sibling :
    let rules : List Rule :=
      [⟨"S", [.nonterminal "E", .nonterminal "S"], .forward⟩, ⟨"E", [], .forward⟩,
        ⟨"S", [.terminal 's'], .forward⟩]
    Draft.build ⟨"S", rules, []⟩ = .error (.selfDerivation "S") ∧
      Grammar.DerivesItself rules "S" ∧ ¬ Draft.Admissible ⟨"S", rules, []⟩ := by
  intro rules
  have hbuild : Draft.build ⟨"S", rules, []⟩ = .error (.selfDerivation "S") := by cbv
  obtain ⟨hiff, -, hself⟩ := exists_build_iff_admissible ⟨"S", rules, []⟩
  refine ⟨hbuild, (hself "S" hbuild).1, fun h => ?_⟩
  obtain ⟨g, hg⟩ := hiff.mpr h
  rw [hbuild] at hg
  cases hg

end Draft

end RegularLanguages
