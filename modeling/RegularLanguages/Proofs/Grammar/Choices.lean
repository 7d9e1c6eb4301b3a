import Mathlib.Data.List.Sigma
import RegularLanguages.Proofs.Grammar.Lookup

/-!
# Every choice of spans and trees, once

To fill a row of items from one place of a word to another is to choose the end of the span of each
item, and an entry for each span: a terminal has a span of one character, which it must be, and a
nonterminal has any span and any entry of its cell. `Picks` says what a choice is, and `choices`
tries them all, with every end for every item.

`expand` is the enumeration in place. It keeps the children taken so far in one array, puts a child
there before it goes on with the next item, and takes it off again afterwards. It gives up as soon
as the span is too short for the terminals to come, and it does not look for the end of a last
nonterminal. What it leaves out is no choice (`choices_eq_nil`), so it finds a row of children for
each choice, in the same order (`expand_eq`).
-/

namespace RegularLanguages.Chart

variable {chart : Chart} {word : Array Char} {items rest : List Item} {item : Item}
  {pos stop : Nat}

/-! ## Choices -/

/-- What is chosen for one item: where its span ends, the place of the entry among those that the
item has for the span, and the tree that stands there. -/
structure Pick where
  stop : Nat
  entry : Nat
  tree : ParseTree

/-- The item has the entry for the span from `pos` on. A terminal has one entry, its leaf, for the
span of one character that holds it. -/
def Fits (chart : Chart) (word : Array Char) : Item → Nat → Pick → Prop
  | .terminal c, pos, pick => word[pos]? = some c ∧ pick = ⟨pos + 1, 0, .leaf c⟩
  | .nonterminal id, pos, pick =>
    pos ≤ pick.stop ∧ (chart.cell pos pick.stop id)[pick.entry]? = some pick.tree

/-- One pick for each item; the spans lie side by side from the first place to the second. -/
inductive Picks (chart : Chart) (word : Array Char) : List Item → Nat → List Pick → Nat → Prop
  | nil (pos : Nat) : Picks chart word [] pos [] pos
  | cons {item : Item} {rest : List Item} {pos stop : Nat} {pick : Pick} {picks : List Pick}
      (hpick : Fits chart word item pos pick) (hrest : Picks chart word rest pick.stop picks stop) :
      Picks chart word (item :: rest) pos (pick :: picks) stop

/-- The picks for an item whose span begins at `pos` and ends at `stop` or before. -/
def picksFor (chart : Chart) (word : Array Char) (stop : Nat) : Item → Nat → List Pick
  | .terminal c, pos => if word[pos]? = some c ∧ pos < stop then [⟨pos + 1, 0, .leaf c⟩] else []
  | .nonterminal id, pos =>
    (List.range' pos (stop + 1 - pos)).flatMap fun mid =>
      (chart.cell pos mid id).zipIdx.map fun (t, entry) => ⟨mid, entry, t⟩

/-- Every choice for a row of items from `pos` to `stop`. -/
def choices (chart : Chart) (word : Array Char) (stop : Nat) : List Item → Nat → List (List Pick)
  | [], pos => if pos = stop then [[]] else []
  | item :: rest, pos =>
    (picksFor chart word stop item pos).flatMap fun pick =>
      (choices chart word stop rest pick.stop).map (pick :: ·)

/-- The rows of children of all choices. -/
def choiceRows (chart : Chart) (word : Array Char) (stop : Nat) (items : List Item) (pos : Nat) :
    List (List ParseTree) :=
  (choices chart word stop items pos).map (·.map Pick.tree)

/-! ## Enumeration in place -/

/-- The children taken so far, and the rows of children found so far. -/
structure Gathering where
  taken : Array ParseTree
  rows : Array (List ParseTree)

namespace Gathering

/-- Puts a child behind the ones that were taken. -/
def push (s : Gathering) (t : ParseTree) : Gathering := { s with taken := s.taken.push t }

/-- Takes the last child off again. -/
def pop (s : Gathering) : Gathering := { s with taken := s.taken.pop }

/-- Adds the children that were taken to the rows. -/
def emit (s : Gathering) : Gathering := { s with rows := s.rows.push s.taken.toList }

end Gathering

/-- Adds every row of children that a row of items can have from `pos` to `stop`, each behind the
children taken so far. -/
def expand (chart : Chart) (word : Array Char) (stop : Nat) :
    List Item → Nat → Gathering → Gathering
  | [], pos, s => if pos = stop then s.emit else s
  | item :: rest, pos, s =>
    let reserved := rest.countP Item.isTerminal
    if stop < pos + reserved then s
    else
      match item with
      | .terminal c =>
        if word[pos]? = some c ∧ pos < stop then
          (expand chart word stop rest (pos + 1) (s.push (.leaf c))).pop
        else s
      | .nonterminal id =>
        if rest.isEmpty then
          (chart.cell pos stop id).foldl (fun s t => (s.push t).emit.pop) s
        else
          (List.range' pos (stop - reserved + 1 - pos)).foldl (fun s mid =>
            (chart.cell pos mid id).foldl (fun s t =>
              (expand chart word stop rest mid (s.push t)).pop) s) s

/-! ## What is a choice -/

/-- The trees of a choice are a row of children. -/
theorem Picks.row {picks : List Pick} (h : Picks chart word items pos picks stop) :
    Row chart word items pos (picks.map Pick.tree) stop := by
  induction h with
  | nil pos => exact .nil pos
  | @cons item _ _ _ _ _ hpick _ ih =>
    cases item with
    | terminal c =>
      obtain ⟨hc, rfl⟩ := hpick
      exact .terminal hc ih
    | nonterminal id => exact .nonterminal hpick.1 (List.mem_of_getElem? hpick.2) ih

theorem mem_picksFor {pick : Pick} :
    pick ∈ picksFor chart word stop item pos ↔
      Fits chart word item pos pick ∧ pick.stop ≤ stop := by
  cases item with
  | terminal c =>
    rw [picksFor, Fits]
    constructor
    · intro h
      split at h
      · next hc =>
        obtain rfl := List.mem_singleton.mp h
        exact ⟨⟨hc.1, rfl⟩, hc.2⟩
      · cases h
    · rintro ⟨⟨hc, rfl⟩, hle⟩
      rw [if_pos ⟨hc, hle⟩]
      exact List.mem_singleton_self _
  | nonterminal id =>
    simp only [picksFor, Fits, List.mem_flatMap, List.mem_range'_1, List.mem_map, Prod.exists,
      List.mk_mem_zipIdx_iff_getElem?]
    constructor
    · rintro ⟨mid, hmid, t, entry, ht, rfl⟩
      have hstop : mid ≤ stop := by omega
      exact ⟨⟨hmid.1, ht⟩, hstop⟩
    · rintro ⟨⟨hle, ht⟩, hstop⟩
      exact ⟨pick.stop, ⟨hle, by omega⟩, pick.tree, pick.entry, ht, rfl⟩

/-- **All choices are tried, and nothing else.** -/
theorem mem_choices (items : List Item) {pos : Nat} {picks : List Pick} :
    picks ∈ choices chart word stop items pos ↔ Picks chart word items pos picks stop := by
  induction items generalizing pos picks with
  | nil =>
    rw [choices]
    constructor
    · intro h
      split at h
      · next heq =>
        subst heq
        obtain rfl := List.mem_singleton.mp h
        exact .nil pos
      · cases h
    · rintro ⟨⟩
      rw [if_pos rfl]
      exact List.mem_singleton_self _
  | cons item rest ih =>
    simp only [choices, List.mem_flatMap, List.mem_map, mem_picksFor, ih]
    constructor
    · rintro ⟨pick, ⟨hpick, -⟩, picks, hrest, rfl⟩
      exact .cons hpick hrest
    · rintro (_ | ⟨hpick, hrest⟩)
      exact ⟨_, ⟨hpick, hrest.row.le⟩, _, hrest, rfl⟩

/-- Two picks for one item differ in the end of the span or in the place of the entry. -/
theorem nodup_picksFor : (picksFor chart word stop item pos).Nodup := by
  cases item with
  | terminal c =>
    rw [picksFor]
    split
    · exact List.nodup_singleton _
    · exact List.nodup_nil
  | nonterminal id =>
    rw [picksFor, List.nodup_flatMap]
    constructor
    · intro mid _
      refine (List.nodup_zipIdx_map_snd _).of_map.map ?_
      rintro ⟨t, entry⟩ ⟨t', entry'⟩ h
      obtain ⟨-, hentry, htree⟩ := Pick.mk.inj h
      rw [hentry, htree]
    · refine List.Pairwise.imp ?_ (List.nodup_range' (s := pos))
      intro mid mid' hne pick hpick hpick'
      obtain ⟨_, -, rfl⟩ := List.mem_map.mp hpick
      obtain ⟨_, -, heq⟩ := List.mem_map.mp hpick'
      exact hne (Pick.mk.inj heq).1.symm

/-- **No choice is tried twice.** -/
theorem nodup_choices (items : List Item) (pos : Nat) :
    (choices chart word stop items pos).Nodup := by
  induction items generalizing pos with
  | nil =>
    rw [choices]
    split
    · exact List.nodup_singleton _
    · exact List.nodup_nil
  | cons item rest ih =>
    rw [choices, List.nodup_flatMap]
    refine ⟨fun pick _ => (ih pick.stop).map List.cons_injective,
      nodup_picksFor.imp fun {pick pick'} hne picks hpicks hpicks' => ?_⟩
    obtain ⟨_, -, rfl⟩ := List.mem_map.mp hpicks
    obtain ⟨_, -, heq⟩ := List.mem_map.mp hpicks'
    exact hne (List.cons.inj heq).1.symm

/-- Without room for the terminals there is no choice. -/
theorem choices_eq_nil (hshort : stop < pos + items.countP Item.isTerminal) :
    choices chart word stop items pos = [] := by
  refine List.eq_nil_iff_forall_not_mem.mpr fun picks hpicks => ?_
  have hroom := ((mem_choices items).mp hpicks).row.add_countP_le
  omega

/-! ## The rows of all choices -/

theorem choiceRows_eq_nil (hshort : stop < pos + items.countP Item.isTerminal) :
    choiceRows chart word stop items pos = [] := by
  rw [choiceRows, choices_eq_nil hshort, List.map_nil]

theorem choiceRows_nil :
    choiceRows chart word stop [] pos = if pos = stop then [[]] else [] := by
  rw [choiceRows, choices]
  split <;> rfl

theorem choiceRows_terminal {c : Char} :
    choiceRows chart word stop (.terminal c :: rest) pos =
      if word[pos]? = some c ∧ pos < stop then
        (choiceRows chart word stop rest (pos + 1)).map (.leaf c :: ·)
      else [] := by
  rw [choiceRows, choices, picksFor]
  split
  · rw [List.flatMap_singleton, choiceRows, List.map_map, List.map_map]
    rfl
  · rfl

theorem choiceRows_nonterminal {id : Nat} :
    choiceRows chart word stop (.nonterminal id :: rest) pos =
      (List.range' pos (stop + 1 - pos)).flatMap fun mid =>
        (chart.cell pos mid id).flatMap fun t =>
          (choiceRows chart word stop rest mid).map (t :: ·) := by
  rw [choiceRows, choices, picksFor, List.flatMap_assoc, List.map_flatMap]
  refine List.flatMap_congr fun mid _ => ?_
  rw [← List.zipIdx_map_fst 0 (chart.cell pos mid id), List.flatMap_map, List.flatMap_map,
    List.map_flatMap, List.zipIdx_map_fst]
  refine List.flatMap_congr fun found _ => ?_
  rw [choiceRows, List.map_map, List.map_map]
  rfl

/-- Ends from which the rest has no choice contribute no row. -/
theorem flatMap_rows_eq_nil {id : Nat} {ends : List Nat}
    (hends : ∀ mid ∈ ends, choiceRows chart word stop rest mid = []) :
    (ends.flatMap fun mid => (chart.cell pos mid id).flatMap fun t =>
      (choiceRows chart word stop rest mid).map (t :: ·)) = [] := by
  refine List.flatMap_eq_nil_iff.mpr fun mid hmid => List.flatMap_eq_nil_iff.mpr fun t _ => ?_
  rw [hends mid hmid, List.map_nil]

/-- The span of a last nonterminal ends where the whole span ends. -/
theorem choiceRows_last {id : Nat} (hpos : pos ≤ stop) :
    choiceRows chart word stop [.nonterminal id] pos =
      (chart.cell pos stop id).flatMap fun t => [[t]] := by
  have hends : List.range' pos (stop + 1 - pos) = List.range' pos (stop - pos) ++ [stop] := by
    rw [Nat.sub_add_comm hpos, List.range'_1_concat, Nat.add_sub_cancel' hpos]
  have hearlier : ∀ mid ∈ List.range' pos (stop - pos),
      choiceRows chart word stop [] mid = [] := by
    intro mid hmid
    have hne : mid ≠ stop := by
      have := List.mem_range'_1.mp hmid
      omega
    rw [choiceRows_nil, if_neg hne]
  rw [choiceRows_nonterminal, hends, List.flatMap_append, flatMap_rows_eq_nil hearlier,
    List.nil_append, List.flatMap_singleton, choiceRows_nil, if_pos rfl]
  rfl

/-- **Ends that leave too little room for the terminals to come are ends of no choice.** -/
theorem choiceRows_reserved {id : Nat} (hroom : pos + rest.countP Item.isTerminal ≤ stop) :
    choiceRows chart word stop (.nonterminal id :: rest) pos =
      (List.range' pos (stop - rest.countP Item.isTerminal + 1 - pos)).flatMap fun mid =>
        (chart.cell pos mid id).flatMap fun t =>
          (choiceRows chart word stop rest mid).map (t :: ·) := by
  generalize hreserved : rest.countP Item.isTerminal = reserved at hroom ⊢
  have hends : List.range' pos (stop + 1 - pos) =
      List.range' pos (stop - reserved + 1 - pos) ++
        List.range' (stop - reserved + 1) reserved := by
    have hlength : stop + 1 - pos = stop - reserved + 1 - pos + reserved := by omega
    have hcut : pos + (stop - reserved + 1 - pos) = stop - reserved + 1 := by omega
    rw [hlength, ← List.range'_append_1, hcut]
  have hlater : ∀ mid ∈ List.range' (stop - reserved + 1) reserved,
      choiceRows chart word stop rest mid = [] := by
    intro mid hmid
    have hbounds := List.mem_range'_1.mp hmid
    exact choiceRows_eq_nil (by omega)
  rw [choiceRows_nonterminal, hends, List.flatMap_append, flatMap_rows_eq_nil hlater,
    List.append_nil]

/-! ## The enumeration finds the rows of all choices -/

namespace Gathering

variable {s : Gathering}

/-- Adds rows of children, each behind the children taken so far. -/
def addAll (s : Gathering) (rows : List (List ParseTree)) : Gathering :=
  { s with rows := s.rows ++ (rows.map (s.taken.toList ++ ·)).toArray }

theorem addAll_nil : s.addAll [] = s := by
  rw [addAll, List.map_nil, Array.append_empty]

theorem addAll_append (first second : List (List ParseTree)) :
    s.addAll (first ++ second) = (s.addAll first).addAll second := by
  simp only [addAll, List.map_append, ← List.append_toArray, Array.append_assoc]

theorem emit_eq : s.emit = s.addAll [[]] := by
  rw [emit, addAll, List.map_singleton, List.append_nil, Array.push_eq_append]

/-- A child that is taken before a step and off again afterwards stands in front of every row that
the step adds. -/
theorem pop_addAll_push (t : ParseTree) (rows : List (List ParseTree)) :
    ((s.push t).addAll rows).pop = s.addAll (rows.map (t :: ·)) := by
  simp [push, pop, addAll, List.map_map, Function.comp_def]

/-- Steps that add rows, one after the other, add the rows of all steps. -/
theorem foldl_eq_addAll {α : Type} {f : Gathering → α → Gathering}
    {rows : α → List (List ParseTree)} {l : List α}
    (h : ∀ a ∈ l, ∀ s, f s a = s.addAll (rows a)) (s : Gathering) :
    l.foldl f s = s.addAll (l.flatMap rows) := by
  induction l generalizing s with
  | nil => rw [List.foldl_nil, List.flatMap_nil, addAll_nil]
  | cons a l ih =>
    obtain ⟨ha, hl⟩ := List.forall_mem_cons.mp h
    rw [List.foldl_cons, ha, ih hl, List.flatMap_cons, addAll_append]

end Gathering

/-- **The enumeration adds the row of each choice**, and leaves the children taken so far as they
were. -/
theorem expand_eq (items : List Item) (pos : Nat) (s : Gathering) :
    expand chart word stop items pos s = s.addAll (choiceRows chart word stop items pos) := by
  induction items generalizing pos s with
  | nil =>
    rw [expand, choiceRows_nil]
    split
    · exact Gathering.emit_eq
    · exact Gathering.addAll_nil.symm
  | cons item rest ih =>
    -- a child is taken, the rest of the row is enumerated, and the child is taken off again
    have hstep : ∀ (t : ParseTree) (mid : Nat) (s : Gathering),
        (expand chart word stop rest mid (s.push t)).pop =
          s.addAll ((choiceRows chart word stop rest mid).map (t :: ·)) := by
      intro t mid s
      rw [ih, Gathering.pop_addAll_push]
    unfold expand
    by_cases hshort : stop < pos + rest.countP Item.isTerminal
    · have hnone : stop < pos + (item :: rest).countP Item.isTerminal := by
        have := (List.sublist_cons_self item rest).countP_le (p := Item.isTerminal)
        omega
      rw [if_pos hshort, choiceRows_eq_nil hnone, Gathering.addAll_nil]
    have hroom := Nat.le_of_not_lt hshort
    rw [if_neg hshort]
    cases item with
    | terminal c =>
      rw [choiceRows_terminal]
      by_cases hc : word[pos]? = some c ∧ pos < stop
      · simp only [if_pos hc]
        exact hstep _ _ s
      · simp only [if_neg hc]
        exact Gathering.addAll_nil.symm
    | nonterminal id =>
      cases rest with
      | nil =>
        rw [choiceRows_last (Nat.le_of_add_right_le hroom)]
        refine Gathering.foldl_eq_addAll (fun t _ s => ?_) s
        rw [Gathering.emit_eq, Gathering.pop_addAll_push, List.map_singleton]
      | cons next rest =>
        rw [choiceRows_reserved hroom]
        refine Gathering.foldl_eq_addAll (fun mid _ s => ?_) s
        exact Gathering.foldl_eq_addAll (fun t _ s => hstep t mid s) s

/-- A child in front of the rows of the rest stands behind the children taken before it. -/
theorem map_taken_append (taken : List ParseTree) (t : ParseTree) (rows : List (List ParseTree)) :
    (rows.map (t :: ·)).map (taken.reverse ++ ·) = rows.map ((t :: taken).reverse ++ ·) := by
  rw [List.map_map, List.reverse_cons]
  refine List.map_congr_left fun row _ => ?_
  rw [List.append_assoc]
  rfl

/-- `childRows` lists the rows of all choices, in the same order. -/
theorem childRows_eq (items : List Item) {pos : Nat} (hpos : pos ≤ stop)
    (taken : List ParseTree) :
    childRows chart word stop items pos taken =
      (choiceRows chart word stop items pos).map (taken.reverse ++ ·) := by
  induction items generalizing pos taken with
  | nil =>
    rw [childRows, choiceRows_nil]
    split
    · rw [List.map_singleton, List.append_nil]
    · rfl
  | cons item rest ih =>
    cases item with
    | terminal c =>
      rw [childRows, choiceRows_terminal]
      by_cases hc : pos < stop ∧ word[pos]? = some c
      · rw [if_pos hc, if_pos hc.symm, ih hc.1, map_taken_append]
      · rw [if_neg hc, if_neg (mt And.symm hc), List.map_nil]
    | nonterminal id =>
      cases rest with
      | nil =>
        rw [childRows, choiceRows_last hpos, ← List.map_eq_flatMap, List.map_map]
        exact List.map_congr_left fun t _ => List.reverse_cons
      | cons next rest =>
        by_cases hroom : pos + (next :: rest).countP Item.isTerminal ≤ stop
        · rw [childRows_eq_flatMap hroom, choiceRows_reserved hroom, List.map_flatMap]
          refine List.flatMap_congr fun mid hmid => ?_
          have hbounds := List.mem_range'_1.mp hmid
          rw [List.map_flatMap]
          refine List.flatMap_congr fun t _ => ?_
          rw [ih (by omega), map_taken_append]
        · rw [childRows_eq_nil hpos (Nat.lt_of_not_le hroom), choiceRows_eq_nil, List.map_nil]
          rw [List.countP_cons_of_neg (by simp [Item.isTerminal])]
          exact Nat.lt_of_not_le hroom

/-- **The enumeration in place adds one row for each choice of spans and entries**, each behind the
children taken so far, and leaves those as they were. The choices are all there are, each is met
once, and the parser lists the same rows. -/
theorem expand_enumerates (chart : Chart) (word : Array Char) (items : List Item) {pos stop : Nat}
    (hpos : pos ≤ stop) (s : Gathering) :
    (expand chart word stop items pos s).taken = s.taken ∧
    (expand chart word stop items pos s).rows = s.rows ++
      ((choices chart word stop items pos).map fun picks =>
        s.taken.toList ++ picks.map Pick.tree).toArray ∧
    (choices chart word stop items pos).Nodup ∧
    (∀ picks, picks ∈ choices chart word stop items pos ↔
      Picks chart word items pos picks stop) ∧
    childRows chart word stop items pos s.taken.toList.reverse =
      (choices chart word stop items pos).map fun picks =>
        s.taken.toList ++ picks.map Pick.tree := by
  refine ⟨?_, ?_, nodup_choices items pos, fun picks => mem_choices items, ?_⟩
  · rw [expand_eq, Gathering.addAll]
  · rw [expand_eq, Gathering.addAll, choiceRows, List.map_map]
    rfl
  · rw [childRows_eq items hpos, choiceRows, List.map_map, List.reverse_reverse]
    rfl

/-- The terminal between the two nonterminals is the first character or the second. -/
theorem expand_enumerates_two_splits :
    let chart : Chart := ((((∅ : Chart).push 0 0 0 (.node 0 .empty [])).push 0 1 0 (.leaf 'x')).push
      1 2 1 (.leaf 'y')).push 2 2 1 (.node 1 .empty [])
    let items : List Item := [.nonterminal 0, .terminal 'a', .nonterminal 1]
    0 ≤ 2 ∧
    (expand chart #['a', 'a'] 2 items 0 ⟨#[.leaf 'b'], #[]⟩).taken = #[.leaf 'b'] ∧
    (expand chart #['a', 'a'] 2 items 0 ⟨#[.leaf 'b'], #[]⟩).rows =
      #[[.leaf 'b', .node 0 .empty [], .leaf 'a', .leaf 'y'],
        [.leaf 'b', .leaf 'x', .leaf 'a', .node 1 .empty []]] := by
  intro chart items
  have hchoices : choices chart #['a', 'a'] 2 items 0 =
      [[⟨0, 0, .node 0 .empty []⟩, ⟨1, 0, .leaf 'a'⟩, ⟨2, 0, .leaf 'y'⟩],
        [⟨1, 0, .leaf 'x'⟩, ⟨2, 0, .leaf 'a'⟩, ⟨2, 0, .node 1 .empty []⟩]] := by cbv
  obtain ⟨htaken, hrows, -⟩ := expand_enumerates chart #['a', 'a'] items
    (by decide : 0 ≤ 2) ⟨#[.leaf 'b'], #[]⟩
  rw [hchoices] at hrows
  exact ⟨by decide, htaken, hrows⟩

end RegularLanguages.Chart
