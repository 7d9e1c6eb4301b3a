import RegularLanguages.Grammar.Chart
import RegularLanguages.Proofs.Grammar.Derivation

/-!
# Spans and rows of children

`Spans` says which part of the word a row of characters covers; it adds up along a row. `Row` is the
meaning of `childRows`: the children stand next to each other from one end of the span to the other,
terminals are read from the word, and the trees of nonterminals are in the chart.

`childRows` leaves out the choices that leave too little room for the terminals to come. Nothing is
lost, since no row goes through them (`Row.add_countP_le`).
-/

namespace RegularLanguages.Chart

variable {word : Array Char} {chart : Chart}

/-! ## Spans -/

/-- The characters stand in the word from place `i` to place `j`. -/
def Spans (word : Array Char) (i : Nat) (cs : List Char) (j : Nat) : Prop :=
  j = i + cs.length ∧ cs <+: word.toList.drop i

theorem Spans.le {i j : Nat} {cs : List Char} (h : Spans word i cs j) : i ≤ j := by
  have := h.1
  omega

theorem spans_nil {i j : Nat} : Spans word i [] j ↔ j = i := by
  simp [Spans]

theorem spans_append {i k : Nat} {u v : List Char} :
    Spans word i (u ++ v) k ↔
      Spans word i u (i + u.length) ∧ Spans word (i + u.length) v k := by
  unfold Spans
  rw [List.length_append]
  constructor
  · rintro ⟨rfl, hprefix⟩
    obtain ⟨rest, hrest⟩ := hprefix
    refine ⟨⟨rfl, ⟨v ++ rest, by rw [← List.append_assoc]; exact hrest⟩⟩, by omega, ⟨rest, ?_⟩⟩
    rw [← List.drop_drop, ← hrest, List.append_assoc, List.drop_left]
  · rintro ⟨⟨-, ⟨after, hafter⟩⟩, rfl, ⟨rest, hrest⟩⟩
    refine ⟨by omega, ⟨rest, ?_⟩⟩
    rw [← List.drop_drop, ← hafter, List.drop_left] at hrest
    rw [List.append_assoc, hrest, hafter]

theorem spans_singleton {i j : Nat} {c : Char} :
    Spans word i [c] j ↔ j = i + 1 ∧ word[i]? = some c := by
  unfold Spans
  rw [List.singleton_prefix_iff_head?_eq_some, List.head?_drop, List.length_singleton,
    Array.getElem?_toList]

theorem spans_whole {cs : List Char} : Spans word 0 cs word.size ↔ cs = word.toList := by
  unfold Spans
  rw [Nat.zero_add, List.drop_zero]
  constructor
  · rintro ⟨hsize, hprefix⟩
    exact hprefix.eq_of_length (by rw [← hsize, Array.length_toList])
  · rintro rfl
    exact ⟨Array.length_toList.symm, List.prefix_rfl⟩

/-! ## Rows -/

/-- The children fit the items and lie side by side from the first place to the second. -/
inductive Row (chart : Chart) (word : Array Char) :
    List Item → Nat → List ParseTree → Nat → Prop
  | nil (pos : Nat) : Row chart word [] pos [] pos
  | terminal {c : Char} {rest : List Item} {pos stop : Nat} {ts : List ParseTree}
      (hc : word[pos]? = some c) (hrest : Row chart word rest (pos + 1) ts stop) :
      Row chart word (.terminal c :: rest) pos (.leaf c :: ts) stop
  | nonterminal {id : Nat} {rest : List Item} {pos mid stop : Nat} {t : ParseTree}
      {ts : List ParseTree} (hle : pos ≤ mid) (ht : t ∈ chart.cell pos mid id)
      (hrest : Row chart word rest mid ts stop) :
      Row chart word (.nonterminal id :: rest) pos (t :: ts) stop

/-- A row leaves room for its terminals. -/
theorem Row.add_countP_le {items : List Item} {pos stop : Nat} {ts : List ParseTree}
    (h : Row chart word items pos ts stop) : pos + items.countP Item.isTerminal ≤ stop := by
  induction h with
  | nil => exact Nat.le_refl _
  | terminal _ _ ih =>
    rw [List.countP_cons_of_pos rfl]
    omega
  | nonterminal hle _ _ ih =>
    rw [List.countP_cons_of_neg (by simp [Item.isTerminal])]
    omega

theorem Row.le {items : List Item} {pos stop : Nat} {ts : List ParseTree}
    (h : Row chart word items pos ts stop) : pos ≤ stop :=
  Nat.le_of_add_right_le h.add_countP_le

/-- **The rows that are listed are the rows there are**, each behind the children taken so far. -/
theorem mem_childRows {stop : Nat} (items : List Item) {pos : Nat} (hpos : pos ≤ stop)
    {taken children : List ParseTree} :
    children ∈ childRows chart word stop items pos taken ↔
      ∃ ts, Row chart word items pos ts stop ∧ children = taken.reverse ++ ts := by
  induction items generalizing pos taken with
  | nil =>
    rw [childRows]
    constructor
    · intro h
      split at h
      · next heq =>
        subst heq
        exact ⟨[], .nil pos, by rw [List.append_nil, List.mem_singleton.mp h]⟩
      · cases h
    · rintro ⟨ts, hrow, rfl⟩
      cases hrow
      rw [if_pos rfl, List.append_nil]
      exact List.mem_singleton_self _
  | cons item rest ih =>
    cases item with
    | terminal c =>
      rw [childRows]
      constructor
      · intro h
        split at h
        · next hc =>
          obtain ⟨ts, hrow, rfl⟩ := (ih hc.1).mp h
          exact ⟨.leaf c :: ts, .terminal hc.2 hrow, by simp⟩
        · cases h
      · rintro ⟨ts, hrow, rfl⟩
        cases hrow with
        | terminal hc hrest =>
          have hlt : pos < stop := hrest.le
          rw [if_pos ⟨hlt, hc⟩, ih hlt]
          exact ⟨_, hrest, by simp⟩
    | nonterminal id =>
      cases rest with
      | nil =>
        rw [childRows, List.mem_map]
        constructor
        · rintro ⟨t, ht, rfl⟩
          exact ⟨[t], .nonterminal hpos ht (.nil stop), by simp⟩
        · rintro ⟨ts, hrow, rfl⟩
          cases hrow with
          | nonterminal _ ht hrest =>
            cases hrest
            exact ⟨_, ht, by simp⟩
      | cons item' rest =>
        rw [childRows]
        constructor
        · intro h
          split at h
          · next hroom =>
            obtain ⟨width, hwidth, h⟩ := List.mem_flatMap.mp h
            obtain ⟨t, ht, h⟩ := List.mem_flatMap.mp h
            rw [List.mem_range] at hwidth
            obtain ⟨ts, hrow, rfl⟩ := (ih (by omega)).mp h
            exact ⟨t :: ts, .nonterminal (Nat.le_add_right pos width) ht hrow, by simp⟩
          · cases h
        · rintro ⟨ts, hrow, rfl⟩
          cases hrow with
          | @nonterminal _ _ _ mid _ t ts hle ht hrest =>
            -- the rest of the row leaves room for its terminals, so the choice is not cut off
            have hroom := hrest.add_countP_le
            rw [if_pos (by omega), List.mem_flatMap]
            refine ⟨mid - pos, List.mem_range.mpr (by omega), List.mem_flatMap.mpr ⟨t, ?_, ?_⟩⟩
            · rwa [Nat.add_sub_cancel' hle]
            · rw [Nat.add_sub_cancel' hle, ih hrest.le]
              exact ⟨ts, hrest, by simp⟩

end RegularLanguages.Chart
