import RegularLanguages.Proofs.Grammar.Rewriting

/-!
# Nullable names

`isNullable` is asked by name and answers for a grammar that was built. It says yes to the names whose
nonterminal derives the empty word, be it by rewriting or by a tree without leaves, and to no others;
a name that the grammar does not know derives nothing.

The nullable nonterminals are the outcome of a fixed number of passes. `Settles` is the loop without a
number given beforehand: passes over the productions, each with what the one before it has found, until
one finds nothing new. It stops in time and with the same outcome (`exists_settles`).
-/

namespace RegularLanguages

namespace Grammar

variable {g : Grammar} {productions : List Production} {known result result' : List Nat}

/-! ## The loop -/

/-- Passes follow each other until one finds nothing new. The number counts that last one too. -/
inductive Settles (productions : List Production) : List Nat → Nat → List Nat → Prop
  | last {known : List Nat} (h : nullablePass productions known = known) :
      Settles productions known 1 known
  | again {known result : List Nat} {n : Nat} (h : nullablePass productions known ≠ known)
      (hrest : Settles productions (nullablePass productions known) n result) :
      Settles productions known (n + 1) result

/-- The loop makes one run at most. -/
theorem Settles.unique {n n' : Nat} (h : Settles productions known n result)
    (h' : Settles productions known n' result') : n' = n ∧ result' = result := by
  induction h generalizing n' with
  | last hlast =>
    cases h' with
    | last => exact ⟨rfl, rfl⟩
    | again hmore => exact absurd hlast hmore
  | again hmore _ ih =>
    cases h' with
    | last hlast => exact absurd hlast hmore
    | again _ hrest =>
      obtain ⟨rfl, rfl⟩ := ih hrest
      exact ⟨rfl, rfl⟩

theorem nullableAfter_of_last {k : Nat}
    (h : nullablePass productions (nullableAfter productions k) = nullableAfter productions k)
    (m : Nat) : nullableAfter productions (k + m) = nullableAfter productions k := by
  induction m with
  | zero => rfl
  | succ m ih => rw [← Nat.add_assoc, nullableAfter, ih, h]

/-- From some pass on, the loop needs one pass more than there are to a closed list. -/
theorem exists_settles_of_closed (m : Nat) {k : Nat}
    (h : NullableClosed productions (nullableAfter productions (k + m))) :
    ∃ n ≤ m + 1,
      Settles productions (nullableAfter productions k) n (nullableAfter productions (k + m)) := by
  induction m generalizing k with
  | zero => exact ⟨1, Nat.le_refl _, .last (nullablePass_of_closed h)⟩
  | succ m ih =>
    by_cases hlast :
        nullablePass productions (nullableAfter productions k) = nullableAfter productions k
    · rw [nullableAfter_of_last hlast]
      exact ⟨1, by omega, .last hlast⟩
    · have hshift : k + (m + 1) = k + 1 + m := by omega
      rw [hshift] at h ⊢
      obtain ⟨n, hn, hsettles⟩ := ih h
      exact ⟨n + 1, by omega, .again hlast hsettles⟩

/-- **The loop stops**, after one pass more than there are nonterminals at the latest. -/
theorem exists_settles {count : Nat} (hb : Bounded productions count) :
    ∃ n ≤ count + 1, Settles productions [] n (nullableAfter productions count) := by
  have hclosed := nullableClosed_nullableAfter hb
  rw [← Nat.zero_add count] at hclosed
  have hsettles := exists_settles_of_closed count hclosed
  rwa [Nat.zero_add] at hsettles

/-! ## Rewriting to the empty row -/

/-- A row that rewrites to the empty one has leafless symbols only. -/
theorem leafless_of_derives_nil {rules : List Rule} {u : List Symbol}
    (h : Relation.ReflTransGen (Rewrites rules) u []) : ∀ symbol ∈ u, Leafless rules symbol := by
  induction h using Relation.ReflTransGen.head_induction_on with
  | refl => simp
  | head hstep _ ih =>
    obtain ⟨rule, hrule, before, after, rfl, rfl⟩ := hstep
    rw [List.forall_mem_append, List.forall_mem_append] at ih
    rw [List.forall_mem_append, List.forall_mem_cons]
    exact ⟨ih.1, leafless_lhs hrule ih.2.1, ih.2.2⟩

theorem derives_nil_iff {rules : List Rule} {symbol : Symbol} :
    Relation.ReflTransGen (Rewrites rules) [symbol] [] ↔ Leafless rules symbol :=
  ⟨fun h => leafless_of_derives_nil h symbol List.mem_cons_self, Leafless.derives_nil⟩

/-! ## Names -/

/-- A nonterminal with a tree is a name of the grammar. -/
theorem Faithful.mem_nonterminals_of_derivation (hg : g.Faithful) {name : String} {t : ParseTree}
    (h : Derivation g.rules (.nonterminal name) t) : name ∈ g.nonterminals := by
  cases h with
  | node hrule hchildren =>
    have hmem := List.mk_mem_zipIdx_iff_getElem?.mpr hrule
    obtain ⟨p, -, hresolved⟩ := exists_of_forall₂_of_mem hg.resolved hmem
    exact List.mem_of_getElem? hresolved.lhs

theorem Faithful.isNullable_iff (hg : g.Faithful) (hchecked : g.Checked) {name : String} :
    g.isNullable name = true ↔ Leafless g.rules (.nonterminal name) := by
  unfold isNullable
  cases hid : g.nonterminals.idxOf? name with
  | none =>
    refine iff_of_false Bool.false_ne_true ?_
    rintro ⟨t, ht, -⟩
    exact List.idxOf?_eq_none_iff.mp hid (hg.mem_nonterminals_of_derivation ht)
  | some id =>
    have hstands : Stands g.nonterminals (.nonterminal id) (.nonterminal name) :=
      .nonterminal (getElem?_of_idxOf? hid)
    simp only [List.contains_iff_mem, hchecked.nullable_eq,
      mem_nullableAfter_iff hchecked.bounded, hg.derives_iff _ hstands, Leafless]

end Grammar

namespace Draft

variable {d : Draft} {g : Grammar}

/-- **A nonterminal is nullable if and only if it derives the empty word.** To derive is to rewrite by
the rules of the draft, which comes to a derivation tree without leaves. The loop that repeats the
passes over the productions until one finds nothing new stops, after one pass more than there are
nonterminals at the latest, and its outcome is the list of the nullable nonterminals. -/
theorem isNullable_iff_derives_nil (h : d.build = .ok g) :
    (∀ name,
      (g.isNullable name = true ↔
        Relation.ReflTransGen (Grammar.Rewrites d.rules) [.nonterminal name] []) ∧
      (g.isNullable name = true ↔
        ∃ t, Derivation d.rules (.nonterminal name) t ∧ t.leaves = [])) ∧
      (∃ n result, Grammar.Settles g.productions [] n result) ∧
      ∀ n result, Grammar.Settles g.productions [] n result →
        n ≤ g.nonterminals.length + 1 ∧ result = g.nullable := by
  have hchecked := checked_of_build h
  have hleafless : ∀ name,
      g.isNullable name = true ↔ Grammar.Leafless d.rules (.nonterminal name) := fun name => by
    rw [(faithful_of_build h).isNullable_iff hchecked, rules_of_build h]
  obtain ⟨n, hn, hsettles⟩ := Grammar.exists_settles hchecked.bounded
  rw [← hchecked.nullable_eq] at hsettles
  refine ⟨fun name => ⟨?_, hleafless name⟩, ⟨n, _, hsettles⟩, fun n' result hsettles' => ?_⟩
  · rw [hleafless, Grammar.derives_nil_iff]
  · obtain ⟨rfl, rfl⟩ := hsettles.unique hsettles'
    exact ⟨hn, rfl⟩

/-- With `S → A B`, `A → B`, `B → ε` and `C → c`, the passes find `B`, `A` and `S` one after the other,
and `C` is not nullable. -/
theorem isNullable_iff_derives_nil_of_chain :
    let d : Draft := ⟨"S", [⟨"S", [.nonterminal "A", .nonterminal "B"], .concatenation⟩,
      ⟨"A", [.nonterminal "B"], .forward⟩, ⟨"B", [], .empty⟩, ⟨"C", [.terminal 'c'], .terminal⟩], []⟩
    ∃ g, d.build = .ok g ∧ g.isNullable "S" = true ∧ g.isNullable "C" = false ∧
      Relation.ReflTransGen (Grammar.Rewrites d.rules) [.nonterminal "S"] [] ∧
      (∃ t, Derivation d.rules (.nonterminal "S") t ∧ t.leaves = []) ∧
      ¬ Relation.ReflTransGen (Grammar.Rewrites d.rules) [.nonterminal "C"] [] ∧
      ∃ n, Grammar.Settles g.productions [] n g.nullable := by
  intro d
  have hbuild : d.build = .ok ⟨"S", d.rules, ["S", "A", "B", "C"],
      [⟨0, .concatenation, 0, [.nonterminal 1, .nonterminal 2]⟩, ⟨1, .forward, 1, [.nonterminal 2]⟩,
        ⟨2, .empty, 2, []⟩, ⟨3, .terminal, 3, [.terminal 'c']⟩], [0, 1, 2]⟩ := by cbv
  obtain ⟨hnames, ⟨n, result, hsettles⟩, hloop⟩ := isNullable_iff_derives_nil hbuild
  obtain ⟨-, rfl⟩ := hloop n result hsettles
  refine ⟨_, hbuild, by decide, by decide, (hnames "S").1.mp (by decide),
    (hnames "S").2.mp (by decide), fun hderives => ?_, n, hsettles⟩
  exact absurd ((hnames "C").1.mpr hderives) (by decide)

end Draft

end RegularLanguages
