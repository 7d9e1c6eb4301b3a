import RegularLanguages.Proofs.Grammar.Parse

/-!
# Look-ups and differences of the chart parser

A node of a parse tree gets its kind from the rule with the number of its production, and the parser
subtracts lengths from each other: the width of a span from the length of the word, and the room for
the terminals to come from the end of a span. In this module a rule that does not exist and a
difference below zero leave no answer.

In a grammar that was built each production has its rule, and the parser never subtracts more than
there is. A row of items is given up as soon as the span is too short for its terminals; rows that
are given up have no children anyway (`Row.add_countP_le`).
-/

namespace RegularLanguages

/-- The difference of two numbers, unless it is below zero. -/
def difference? (a b : Nat) : Option Nat := if b ≤ a then some (a - b) else none

theorem difference?_eq {a b : Nat} (h : b ≤ a) : difference? a b = some (a - b) := if_pos h

/-- The lists that a function gives for the elements of a row, one behind the other. -/
def flatMap? {α β : Type} (f : α → Option (List β)) (l : List α) : Option (List β) :=
  (l.mapM f).map List.flatten

theorem flatMap?_eq {α β : Type} {f : α → Option (List β)} {g : α → List β} {l : List α}
    (h : ∀ a ∈ l, f a = some (g a)) : flatMap? f l = some (l.flatMap g) := by
  rw [flatMap?, mapM_eq_some_map h, Option.map_some, List.flatMap_def]

/-- The production at a place carries the number of the place, and the rule at the same place has
its kind. -/
theorem Grammar.Faithful.exists_rule {g : Grammar} (hg : g.Faithful) {number : Nat} {p : Production}
    (hp : g.productions[number]? = some p) :
    ∃ rule, g.rules[number]? = some rule ∧ p.rule = number ∧ p.kind = rule.kind := by
  obtain ⟨hlength, hresolved⟩ := List.forall₂_iff_get.mp hg.resolved
  obtain ⟨hlt, rfl⟩ := List.getElem?_eq_some_iff.mp hp
  have hrule : number < g.rules.length := by
    rwa [← hlength, List.length_zipIdx] at hlt
  have hnumbered := hresolved number (hlength ▸ hlt) hlt
  simp only [List.get_eq_getElem, List.getElem_zipIdx, Nat.zero_add] at hnumbered
  exact ⟨g.rules[number], List.getElem?_eq_getElem hrule, hnumbered.rule_eq, hnumbered.kind_eq⟩

namespace Chart

variable {g : Grammar} {word : Array Char} {chart : Chart}

/-! ## Rows of children -/

/-- The rows of children that a row of items can have from `pos` to `stop`, behind the children
taken so far. -/
def childRows? (chart : Chart) (word : Array Char) (stop : Nat) :
    List Item → Nat → List ParseTree → Option (List (List ParseTree))
  | [], pos, taken => some (if pos = stop then [taken.reverse] else [])
  | item :: rest, pos, taken =>
    let reserved := rest.countP Item.isTerminal
    if stop < pos + reserved then some []
    else
      match item with
      | .terminal c =>
        if word[pos]? = some c ∧ pos < stop then
          childRows? chart word stop rest (pos + 1) (.leaf c :: taken)
        else some []
      | .nonterminal id =>
        if rest.isEmpty then some ((chart.cell pos stop id).map fun t => (t :: taken).reverse)
        else
          (difference? stop reserved).bind fun last =>
            flatMap? (fun mid =>
              flatMap? (fun t => childRows? chart word stop rest mid (t :: taken))
                (chart.cell pos mid id)) (List.range' pos (last + 1 - pos))

/-- A span that is too short for the terminals behind the first item has no rows. -/
theorem childRows_eq_nil {stop : Nat} {item : Item} {rest : List Item} {pos : Nat}
    (hpos : pos ≤ stop) (hshort : stop < pos + rest.countP Item.isTerminal)
    (taken : List ParseTree) : childRows chart word stop (item :: rest) pos taken = [] := by
  refine List.eq_nil_iff_forall_not_mem.mpr fun children hchildren => ?_
  obtain ⟨ts, hrow, -⟩ := (mem_childRows (item :: rest) hpos).mp hchildren
  have hroom := hrow.add_countP_le
  have hcount : rest.countP Item.isTerminal ≤ (item :: rest).countP Item.isTerminal :=
    (List.sublist_cons_self item rest).countP_le
  omega

/-- The rows by the end of the first child, from `pos` to the last place that leaves room for the
terminals to come. -/
theorem childRows_eq_flatMap {stop id pos : Nat} {next : Item} {rest : List Item}
    (hroom : pos + (next :: rest).countP Item.isTerminal ≤ stop) (taken : List ParseTree) :
    childRows chart word stop (.nonterminal id :: next :: rest) pos taken =
      (List.range' pos (stop - (next :: rest).countP Item.isTerminal + 1 - pos)).flatMap fun mid =>
        (chart.cell pos mid id).flatMap fun t =>
          childRows chart word stop (next :: rest) mid (t :: taken) := by
  have hcount : stop - (next :: rest).countP Item.isTerminal + 1 - pos =
      stop - (next :: rest).countP Item.isTerminal - pos + 1 := by omega
  rw [childRows, if_pos hroom, List.range'_eq_map_range, List.flatMap_map, hcount]

/-- **The room for the terminals to come is never more than there is**, since a row without that
room was given up before. -/
theorem childRows?_eq {stop : Nat} (items : List Item) {pos : Nat} (hpos : pos ≤ stop)
    (taken : List ParseTree) :
    childRows? chart word stop items pos taken =
      some (childRows chart word stop items pos taken) := by
  induction items generalizing pos taken with
  | nil => rw [childRows?, childRows]
  | cons item rest ih =>
    unfold childRows?
    by_cases hshort : stop < pos + rest.countP Item.isTerminal
    · rw [if_pos hshort, childRows_eq_nil hpos hshort]
    rw [if_neg hshort]
    cases item with
    | terminal c =>
      rw [childRows]
      by_cases hc : pos < stop ∧ word[pos]? = some c
      · simp only [if_pos hc, if_pos hc.symm]
        exact ih hc.1 _
      · simp only [if_neg hc, if_neg (mt And.symm hc)]
    | nonterminal id =>
      cases rest with
      | nil => rfl
      | cons next rest =>
        have hroom := Nat.le_of_not_lt hshort
        have hlast := difference?_eq (Nat.le_of_add_left_le hroom)
        rw [childRows_eq_flatMap hroom]
        simp only [List.isEmpty_cons, Bool.false_eq_true, if_false, hlast, Option.bind_some]
        refine flatMap?_eq fun mid hmid => flatMap?_eq fun t _ => ih ?_ (t :: taken)
        -- an end that is tried is at most the last place with room
        have hbounds := List.mem_range'_1.mp hmid
        omega

/-! ## Filling a span -/

/-- The trees that the productions give over a span. A production has the number of its place, and
its rule says of which kind the trees are. -/
def derivations? (g : Grammar) (word : Array Char) (chart : Chart) (i j : Nat) :
    Option (List (Nat × ParseTree)) :=
  flatMap? (fun (p, number) =>
    (childRows? chart word j p.items i []).bind fun rows =>
      rows.mapM fun children =>
        g.rules[number]?.map fun rule => (p.lhs, .node number rule.kind children))
    g.productions.zipIdx

/-- One pass over the productions. -/
def pass? (g : Grammar) (word : Array Char) (i j : Nat) (chart : Chart) : Option Progress :=
  (derivations? g word chart i j).map (chart.insertAll i j)

/-- Repeats passes until one finds nothing new, at most the given number of times. -/
def saturate? (g : Grammar) (word : Array Char) (i j : Nat) : Nat → Chart → Option Chart
  | 0, chart => some chart
  | n + 1, chart =>
    (pass? g word i j chart).bind fun after =>
      if after.grown then saturate? g word i j n after.chart else some after.chart

/-- The spans of a word of the given length. -/
def spans? (length : Nat) : Option (List (Nat × Nat)) :=
  flatMap? (fun width => (difference? length width).map fun last =>
    (List.range (last + 1)).map fun i => (i, i + width)) (List.range (length + 1))

/-- The complete chart of a word. -/
def ofWord? (g : Grammar) (word : Array Char) : Option Chart :=
  (spans? word.size).bind fun spans =>
    spans.foldlM (fun chart span => saturate? g word span.1 span.2 (passBound g) chart) ∅

/-- **Each production has its rule.** -/
theorem derivations?_eq (hg : g.Faithful) {i j : Nat} (hij : i ≤ j) :
    derivations? g word chart i j = some (derivations g word chart i j) := by
  have htrees : ∀ numbered ∈ g.productions.zipIdx,
      ((childRows? chart word j numbered.1.items i []).bind fun rows =>
        rows.mapM fun children => g.rules[numbered.2]?.map fun rule =>
          (numbered.1.lhs, ParseTree.node numbered.2 rule.kind children)) =
      some ((childRows chart word j numbered.1.items i []).map fun children =>
        (numbered.1.lhs, ParseTree.node numbered.1.rule numbered.1.kind children)) := by
    rintro ⟨p, number⟩ hp
    obtain ⟨rule, hrule, hnumber, hkind⟩ :=
      hg.exists_rule (List.mk_mem_zipIdx_iff_getElem?.mp hp)
    rw [childRows?_eq p.items hij, Option.bind_some]
    refine mapM_eq_some_map fun children _ => ?_
    rw [hrule, Option.map_some, hnumber, hkind]
  rw [derivations?, flatMap?_eq htrees, derivations]
  conv_rhs => rw [← List.zipIdx_map_fst 0 g.productions]
  rw [List.flatMap_map]

theorem saturate?_eq (hg : g.Faithful) {i j : Nat} (hij : i ≤ j) (n : Nat) (chart : Chart) :
    saturate? g word i j n chart = some (saturate g word i j n chart) := by
  induction n generalizing chart with
  | zero => rfl
  | succ n ih =>
    have hpass : pass? g word i j chart = some (pass g word i j chart) := by
      rw [pass?, derivations?_eq hg hij, Option.map_some, pass]
    rw [saturate?, saturate, hpass, Option.bind_some]
    split
    · exact ih _
    · rfl

theorem spans?_eq (length : Nat) : spans? length = some (spans length) := by
  refine flatMap?_eq fun width hwidth => ?_
  rw [difference?_eq (Nat.lt_succ_iff.mp (List.mem_range.mp hwidth)), Option.map_some]

theorem foldlM_saturate?_eq (hg : g.Faithful) {todo : List (Nat × Nat)}
    (htodo : ∀ span ∈ todo, span.1 ≤ span.2) (n : Nat) (chart : Chart) :
    todo.foldlM (fun chart span => saturate? g word span.1 span.2 n chart) chart =
      some (todo.foldl (fun chart span => saturate g word span.1 span.2 n chart) chart) := by
  induction todo generalizing chart with
  | nil => rfl
  | cons span todo ih =>
    obtain ⟨hspan, htodo⟩ := List.forall_mem_cons.mp htodo
    rw [List.foldlM_cons, saturate?_eq hg hspan]
    exact ih htodo _

theorem ofWord?_eq (hg : g.Faithful) (word : Array Char) :
    ofWord? g word = some (ofWord g word) := by
  rw [ofWord?, spans?_eq, Option.bind_some]
  exact foldlM_saturate?_eq hg (fun _ hspan => (mem_spans.mp hspan).1) (passBound g) ∅

end Chart

/-- Every parse tree of a word from the start symbol. -/
def Grammar.parse? (g : Grammar) (word : String) : Option (List ParseTree) :=
  let characters := word.toList.toArray
  (Chart.ofWord? g characters).map fun chart => chart.cell 0 characters.size 0

/-- **The parser of a grammar that was built finds every rule and never subtracts too much.** -/
theorem Draft.parse?_eq {d : Draft} {g : Grammar} (h : d.build = .ok g) (word : String) :
    g.parse? word = some (g.parse word) := by
  simp only [Grammar.parse?, Chart.ofWord?_eq (faithful_of_build h), Option.map_some, Grammar.parse]

end RegularLanguages
