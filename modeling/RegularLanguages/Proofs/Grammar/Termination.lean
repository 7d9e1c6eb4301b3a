import RegularLanguages.Proofs.Grammar.Parse

/-!
# The passes over a span come to an end

Here the loops that fill the chart are taken without a number of passes given beforehand: over each
span there are passes until one adds nothing (`Passes`), for one span after the other (`Fills`). Such
a run need not exist. It does for a grammar that passed its checks, and over each span it takes at
most one pass more than there are nonterminals.

## Mechanism

A cell can need other cells of its span: a tree in it can have a child over the whole span, and that
child is in the cell of another nonterminal. The siblings of the child are empty, so the production
shrinks to the child (`Needs.shrinksTo`). No nonterminal derives itself, so no cell needs itself,
however many cells are in between.

That bounds the chains of trees over one span, and with them the passes (`exists_passes`). Every span
is filled when the spans within it are complete, so the bound holds for the whole run.
-/

namespace RegularLanguages

namespace Chart

variable {g : Grammar} {word : Array Char} {chart result result' : Chart} {i j : Nat}
  {todo : List (Nat × Nat)} {counts counts' : List Nat}

/-! ## Cells of one span -/

/-- The cell of `a` needs that of `b` over the same span: a tree from the cell of `b` is a child for a
production of `a`, beside siblings over the empty spans at the two ends. -/
def Needs (g : Grammar) (word : Array Char) (chart : Chart) (i j a b : Nat) : Prop :=
  ∃ p ∈ g.productions, p.lhs = a ∧ ∃ before after, p.items = before ++ .nonterminal b :: after ∧
    (∃ ts, Row chart word before i ts i) ∧ ∃ ts, Row chart word after j ts j

theorem Sound.leaves_eq_nil_of_row (h : Sound g word chart) {items : List Item} {pos : Nat}
    {ts : List ParseTree} (hrow : Row chart word items pos ts pos) :
    ts.flatMap ParseTree.leaves = [] := by
  have hlength := (h.derives_of_row hrow).2.1
  exact List.eq_nil_of_length_eq_zero (by omega)

theorem Needs.shrinksTo (hg : g.Checked) (hsound : Sound g word chart) {a b : Nat}
    (h : Needs g word chart i j a b) : Grammar.ShrinksTo g.productions g.nullable a b := by
  obtain ⟨p, hp, rfl, before, after, hitems, ⟨tsBefore, hbefore⟩, ⟨tsAfter, hafter⟩⟩ := h
  exact shrinksTo_of_siblings hg hp hitems
    (hsound.derives_of_row hbefore).1 (hsound.leaves_eq_nil_of_row hbefore)
    (hsound.derives_of_row hafter).1 (hsound.leaves_eq_nil_of_row hafter)

/-- **No cell needs itself**, neither directly nor through other cells of its span. -/
theorem not_transGen_needs (hg : g.Checked) (hsound : Sound g word chart) (i j id : Nat) :
    ¬ Relation.TransGen (Needs g word chart i j) id id := by
  intro hcycle
  have hshrinks : Needs g word chart i j ≤ Grammar.ShrinksTo g.productions g.nullable :=
    fun _ _ hneeds => hneeds.shrinksTo hg hsound
  exact hg.acyclic id (Relation.TransGen.mono hshrinks id id hcycle)

/-! ## The loops over all spans -/

/-- The loops over a row of spans, with the number of passes over each. -/
inductive Fills (g : Grammar) (word : Array Char) :
    List (Nat × Nat) → Chart → List Nat → Chart → Prop
  | nil {chart : Chart} : Fills g word [] chart [] chart
  | cons {i j n : Nat} {todo : List (Nat × Nat)} {counts : List Nat} {chart between result : Chart}
      (hspan : Passes g word i j chart n between) (hrest : Fills g word todo between counts result) :
      Fills g word ((i, j) :: todo) chart (n :: counts) result

/-- The loops make one run at most. -/
theorem Fills.unique (h : Fills g word todo chart counts result)
    (h' : Fills g word todo chart counts' result') : counts' = counts ∧ result' = result := by
  induction h generalizing counts' with
  | nil =>
    cases h'
    exact ⟨rfl, rfl⟩
  | cons hspan _ ih =>
    cases h' with
    | cons hspan' hrest' =>
      obtain ⟨rfl, rfl⟩ := hspan.unique hspan'
      obtain ⟨rfl, rfl⟩ := ih hrest'
      exact ⟨rfl, rfl⟩

theorem Ready.exists_fills (h : Ready g word todo chart) (hg : g.Checked) :
    ∃ counts, (∀ n ∈ counts, n ≤ passBound g) ∧ Fills g word todo chart counts (todo.foldl
      (fun chart span => Chart.saturate g word span.1 span.2 (passBound g) chart) chart) := by
  induction todo generalizing chart with
  | nil => exact ⟨[], by simp, .nil⟩
  | cons span todo ih =>
    obtain ⟨i, j⟩ := span
    have hij : i ≤ j := (h.inWord (i, j) List.mem_cons_self).1
    obtain ⟨n, hn, between, hpasses⟩ := exists_passes hg hij h.valid.sound h.completeWithin
    have hready := h.saturate hg
    rw [hpasses.saturate_eq hn] at hready
    obtain ⟨counts, hcounts, hfills⟩ := ih hready
    refine ⟨n :: counts, List.forall_mem_cons.mpr ⟨hn, hcounts⟩, ?_⟩
    rw [List.foldl_cons, hpasses.saturate_eq hn]
    exact .cons hpasses hfills

end Chart

/-- **The parser terminates.** For a grammar that passed its checks, and for every word, the loops
over the spans come to an end. Over no span do they make more than one pass more than there are
nonterminals, and they leave the chart from which the trees are taken. In that chart no cell needs
itself through cells of its span. -/
theorem Draft.parse_terminates {d : Draft} {g : Grammar} (h : d.build = .ok g) (input : String) :
    let word := input.toList.toArray
    (∃ counts result, Chart.Fills g word (Chart.spans word.size) ∅ counts result) ∧
      ∀ counts result, Chart.Fills g word (Chart.spans word.size) ∅ counts result →
        (∀ n ∈ counts, n ≤ g.nonterminals.length + 1) ∧
        g.parse input = result.cell 0 word.size 0 ∧
        ∀ i j id, ¬ Relation.TransGen (Chart.Needs g word result i j) id id := by
  intro word
  have hchecked := checked_of_build h
  obtain ⟨counts, hcounts, hfills⟩ := (Chart.ready_spans g word).exists_fills hchecked
  refine ⟨⟨counts, _, hfills⟩, ?_⟩
  intro counts' result hfills'
  obtain ⟨rfl, rfl⟩ := hfills.unique hfills'
  have hsound := (Chart.complete_ofWord hchecked word).1.sound
  exact ⟨hcounts, rfl, Chart.not_transGen_needs hchecked hsound⟩

/-- The case of a letter beside an empty nonterminal: over the span of the letter, the cell of the
start symbol needs that of the letter. -/
theorem Draft.parse_terminates_of_letter :
    ∃ g, (Draft.mk "S" [⟨"S", [.nonterminal "A", .nonterminal "B"], .concatenation⟩,
        ⟨"A", [.terminal 'a'], .terminal⟩, ⟨"B", [], .empty⟩] []).build = .ok g ∧
      (∃ counts result, Chart.Fills g #['a'] (Chart.spans 1) ∅ counts result) ∧
      ∀ counts result, Chart.Fills g #['a'] (Chart.spans 1) ∅ counts result →
        (∀ n ∈ counts, n ≤ g.nonterminals.length + 1) ∧
        g.parse "a" = result.cell 0 1 0 ∧
        ∀ i j id, ¬ Relation.TransGen (Chart.Needs g #['a'] result i j) id id := by
  have hbuild : (Draft.mk "S" [⟨"S", [.nonterminal "A", .nonterminal "B"], .concatenation⟩,
      ⟨"A", [.terminal 'a'], .terminal⟩, ⟨"B", [], .empty⟩] []).build = .ok ⟨"S",
        [⟨"S", [.nonterminal "A", .nonterminal "B"], .concatenation⟩,
          ⟨"A", [.terminal 'a'], .terminal⟩, ⟨"B", [], .empty⟩], ["S", "A", "B"],
        [⟨0, .concatenation, 0, [.nonterminal 1, .nonterminal 2]⟩,
          ⟨1, .terminal, 1, [.terminal 'a']⟩, ⟨2, .empty, 2, []⟩], [2]⟩ := by cbv
  exact ⟨_, hbuild, parse_terminates hbuild "a"⟩

end RegularLanguages
