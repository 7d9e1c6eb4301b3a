import Std.Data.HashMap
import RegularLanguages.Grammar.Basic
import RegularLanguages.Grammar.Tree

/-!
# All parse trees of a word

A chart has one cell for each span of the word and each nonterminal. The cell lists the trees by
which the nonterminal derives the part of the word between the two ends of the span.

## Mechanism

The spans are filled shortest first, so when a span is filled, all shorter ones are complete. A tree
can also have a child over its own span: the other children are then empty. Hence one pass over the
productions is not enough, and the passes are repeated until one of them finds nothing new.

`childRows` lists the rows of children that a row of items can have. It keeps the children taken so
far and tries every end for the next item, except those that leave too few characters for the
terminals to come.

## Termination

Take a chain of trees over one span, each the child of the one before. In a grammar in which no
nonterminal derives itself, the chain passes each nonterminal at most once. A tree is found in the
pass whose number is the length of the longest such chain below it, so nothing new comes after as
many passes as there are nonterminals; one more pass notices this. `passBound` is that number.
-/

namespace RegularLanguages

/-- The trees found so far, by start, end and nonterminal. -/
structure Chart where
  cells : Std.HashMap (Nat × Nat × Nat) (List ParseTree)

namespace Chart

instance : EmptyCollection Chart := ⟨⟨∅⟩⟩

/-! ## Cells -/

/-- The trees over the span from `i` to `j` from a nonterminal, in the order of discovery. -/
def cell (chart : Chart) (i j id : Nat) : List ParseTree := chart.cells.getD (i, j, id) []

/-- Adds a tree at the end of its cell. -/
def push (chart : Chart) (i j id : Nat) (t : ParseTree) : Chart :=
  ⟨chart.cells.insert (i, j, id) (chart.cell i j id ++ [t])⟩

theorem cell_push (chart : Chart) (i j id : Nat) (t : ParseTree) (i' j' id' : Nat) :
    (chart.push i j id t).cell i' j' id' =
      if i = i' ∧ j = j' ∧ id = id' then chart.cell i j id ++ [t] else chart.cell i' j' id' := by
  simp [cell, push, Std.HashMap.getD_insert]

/-- A chart, and whether something was added to it. -/
structure Progress where
  chart : Chart
  grown : Bool

/-- Adds a tree from a nonterminal over a span, unless it is there. -/
def insert (i j : Nat) (state : Progress) (found : Nat × ParseTree) : Progress :=
  if found.2 ∈ state.chart.cell i j found.1 then state
  else ⟨state.chart.push i j found.1 found.2, true⟩

/-- Adds a row of trees over a span. -/
def insertAll (chart : Chart) (i j : Nat) (found : List (Nat × ParseTree)) : Progress :=
  found.foldl (insert i j) ⟨chart, false⟩

/-! ## Rows of children -/

/-- The rows of children that a row of items can have from `pos` to `stop`, by the trees in the
chart. Each row is preceded by the children in `taken`, which stand there last one first. -/
def childRows (chart : Chart) (word : Array Char) (stop : Nat) :
    List Item → Nat → List ParseTree → List (List ParseTree)
  | [], pos, taken => if pos = stop then [taken.reverse] else []
  | .terminal c :: rest, pos, taken =>
    if pos < stop ∧ word[pos]? = some c then
      childRows chart word stop rest (pos + 1) (.leaf c :: taken)
    else []
  | [.nonterminal id], pos, taken =>
    (chart.cell pos stop id).map fun t => (t :: taken).reverse
  | .nonterminal id :: next :: rest, pos, taken =>
    let reserved := (next :: rest).countP Item.isTerminal
    if pos + reserved ≤ stop then
      (List.range (stop - reserved - pos + 1)).flatMap fun width =>
        (chart.cell pos (pos + width) id).flatMap fun t =>
          childRows chart word stop (next :: rest) (pos + width) (t :: taken)
    else []

/-! ## Filling a span -/

/-- The trees that the productions give over a span, by the trees in the chart. -/
def derivations (g : Grammar) (word : Array Char) (chart : Chart) (i j : Nat) :
    List (Nat × ParseTree) :=
  g.productions.flatMap fun p =>
    (childRows chart word j p.items i []).map fun children =>
      (p.lhs, .node p.rule p.kind children)

/-- One pass over the productions. -/
def pass (g : Grammar) (word : Array Char) (i j : Nat) (chart : Chart) : Progress :=
  chart.insertAll i j (derivations g word chart i j)

/-- Repeats passes until one finds nothing new, at most the given number of times. -/
def saturate (g : Grammar) (word : Array Char) (i j : Nat) : Nat → Chart → Chart
  | 0, chart => chart
  | n + 1, chart =>
    let after := pass g word i j chart
    if after.grown then saturate g word i j n after.chart else after.chart

/-- The number of passes that a span may need. -/
def passBound (g : Grammar) : Nat := g.nonterminals.length + 1

/-- The spans of a word of the given length, shortest first, and for one length from left to
right. -/
def spans (length : Nat) : List (Nat × Nat) :=
  (List.range (length + 1)).flatMap fun width =>
    (List.range (length - width + 1)).map fun i => (i, i + width)

/-- The complete chart of a word. -/
def ofWord (g : Grammar) (word : Array Char) : Chart :=
  (spans word.size).foldl (fun chart span => saturate g word span.1 span.2 (passBound g) chart) ∅

end Chart

/-- Every parse tree of a word from the start symbol, each once. -/
def Grammar.parse (g : Grammar) (word : String) : List ParseTree :=
  let characters := word.toList.toArray
  (Chart.ofWord g characters).cell 0 characters.size 0

end RegularLanguages
