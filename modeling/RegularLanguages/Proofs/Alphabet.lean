import Mathlib.Algebra.Group.Nat.Defs
import Mathlib.Data.Char
import Mathlib.Data.Finset.Card
import Mathlib.Data.List.NodupEquivFin
import Mathlib.Data.List.Sort
import RegularLanguages.Alphabet.Declared
import RegularLanguages.Proofs.Lists

/-!
# Alphabets are ordered sets

An alphabet is the set of its symbols, and nothing of the way in which it was built is left in it: there
is one strictly increasing list of a set of characters (`eq_of_mem_iff`). So it does not matter in which
order, how often and in which of the spellings the characters were given (`Collects`).

The number of a symbol is its place in that list. Numbers and symbols are in bijection, in the same
order (`numbering`), and a word of symbols is a row of numbers and back.
-/

namespace RegularLanguages

/-! ## Short texts -/

namespace Spelling

/-- The text stands for one character at most. -/
def Short (text : String) : Prop := (normalise text).toList.length ≤ 1

instance (text : String) : Decidable (Short text) :=
  inferInstanceAs (Decidable ((normalise text).toList.length ≤ 1))

/-- The character that a short text stands for; none if it stands for nothing. -/
def char? (text : String) : Option Char := (normalise text).toList.head?

theorem char?_of_toList {text : String} {c : Char} (h : (normalise text).toList = [c]) :
    char? text = some c := by
  rw [char?, h]
  rfl

theorem Short.char?_eq_some_iff {text : String} (h : Short text) {c : Char} :
    char? text = some c ↔ (normalise text).toList = [c] := by
  refine ⟨fun hc => ?_, char?_of_toList⟩
  rw [Short] at h
  rw [char?] at hc
  obtain ⟨rest, hrest⟩ := List.head?_eq_some_iff.mp hc
  rw [hrest, List.length_cons] at h
  rw [hrest, List.eq_nil_of_length_eq_zero (Nat.le_zero.mp (Nat.le_of_succ_le_succ h))]

/-- The character of a short text is the only one that it has. -/
theorem Short.mem_toList_iff {text : String} (h : Short text) {c : Char} :
    c ∈ (normalise text).toList ↔ char? text = some c := by
  rw [Short] at h
  rw [char?]
  match (normalise text).toList, h with
  | [], _ => simp
  | [d], _ => simp [eq_comm]

end Spelling

open Spelling (Short char?)

namespace Alphabet

variable {a b c : Alphabet}

/-! ## Sets of symbols -/

/-- Alphabets with the same symbols are equal. -/
theorem eq_of_mem_iff (h : ∀ c, c ∈ a.symbols ↔ c ∈ b.symbols) : a = b := by
  have hsymbols := a.increasing.eq_of_mem_iff b.increasing h
  cases a
  cases b
  simpa using hsymbols

/-- The symbols are the given characters, each once and in increasing order. `∅` is left out. -/
structure Collects (a : Alphabet) (cs : List Char) : Prop where
  increasing : a.symbols.Pairwise (· < ·)
  mem_iff : ∀ c, c ∈ a.symbols ↔ c ∈ cs ∧ c ≠ Spelling.emptySetSign

theorem collects_ofChars (cs : List Char) : (ofChars cs).Collects cs :=
  ⟨(ofChars cs).increasing, fun _ => mem_symbols_ofChars⟩

/-- The order and the number of times in which characters are given do not matter. -/
theorem Collects.of_mem_iff {cs ds : List Char} (h : a.Collects cs) (hmem : ∀ c, c ∈ cs ↔ c ∈ ds) :
    a.Collects ds :=
  ⟨h.increasing, fun c => by rw [h.mem_iff, hmem]⟩

theorem mem_infer {text : String} {c : Char} : c ∈ (infer text).symbols ↔
    c ∈ (Spelling.normalise text).toList ∧ Spelling.isMetacharacter c = false ∧
      c ≠ Spelling.emptySetSign := by
  simp [infer, mem_symbols_ofChars, and_assoc]

/-! ## Unions -/

theorem mem_union {c : Char} : c ∈ (a.union b).symbols ↔ c ∈ a.symbols ∨ c ∈ b.symbols := by
  rw [union, mem_symbols_ofChars, List.mem_append]
  refine ⟨And.left, fun h => ⟨h, ?_⟩⟩
  rintro rfl
  rcases h with h | h
  · exact a.emptySet_not_mem h
  · exact b.emptySet_not_mem h

theorem union_self (a : Alphabet) : a.union a = a :=
  eq_of_mem_iff fun c => by rw [mem_union, or_self]

theorem union_comm (a b : Alphabet) : a.union b = b.union a :=
  eq_of_mem_iff fun c => by rw [mem_union, mem_union, or_comm]

theorem union_assoc (a b c : Alphabet) : (a.union b).union c = a.union (b.union c) :=
  eq_of_mem_iff fun x => by rw [mem_union, mem_union, mem_union, mem_union, or_assoc]

/-! ## Declared alphabets -/

/-- A text is short and reads as its character, or it is not short. -/
theorem ofText_cases (text : String) :
    Short text ∧ char? text = none ∧ Reading.ofText text = .nothing ∨
      (∃ c, Short text ∧ char? text = some c ∧ Reading.ofText text = .one c) ∨
      ¬ Short text ∧ Reading.ofText text = .several := by
  unfold Reading.ofText Short char?
  match (Spelling.normalise text).toList with
  | [] => simp
  | [c] => simp
  | _ :: _ :: _ => simp

theorem declaredChars_eq_ok_iff {texts : List String} {cs : List Char} :
    declaredChars texts = .ok cs ↔ (∀ s ∈ texts, Short s) ∧ cs = texts.filterMap char? := by
  induction texts generalizing cs with
  | nil => simp [declaredChars, eq_comm]
  | cons text rest ih =>
    rw [declaredChars, List.forall_mem_cons]
    rcases ofText_cases text with ⟨hshort, hchar, hread⟩ | ⟨c, hshort, hchar, hread⟩ | ⟨hlong, hread⟩
    · rw [hread, List.filterMap_cons_none hchar]
      simp only [ih, hshort, true_and]
    · rw [hread, List.filterMap_cons_some hchar]
      constructor
      · intro h
        obtain ⟨ds, hds, rfl⟩ := exists_of_map_eq_ok h
        obtain ⟨hrest, rfl⟩ := ih.mp hds
        exact ⟨⟨hshort, hrest⟩, rfl⟩
      · rintro ⟨⟨-, hrest⟩, rfl⟩
        rw [ih.mpr ⟨hrest, rfl⟩]
        rfl
    · rw [hread]
      refine iff_of_false ?_ fun h => hlong h.1.1
      rintro ⟨⟩

/-- The error names a text that is not short. -/
theorem exists_of_declaredChars_eq_error {texts : List String} {e : Error}
    (h : declaredChars texts = .error e) :
    ∃ s ∈ texts, ¬ Short s ∧ e = .longAlphabetSymbol s := by
  induction texts with
  | nil => cases h
  | cons text rest ih =>
    rw [declaredChars] at h
    rcases ofText_cases text with ⟨-, -, hread⟩ | ⟨c, -, -, hread⟩ | ⟨hlong, hread⟩
    · rw [hread] at h
      obtain ⟨s, hs, hfault⟩ := ih h
      exact ⟨s, List.mem_cons_of_mem _ hs, hfault⟩
    · rw [hread] at h
      cases hrest : declaredChars rest with
      | error e' =>
        rw [hrest] at h
        obtain rfl := Except.error.inj h
        obtain ⟨s, hs, hfault⟩ := ih hrest
        exact ⟨s, List.mem_cons_of_mem _ hs, hfault⟩
      | ok cs =>
        rw [hrest] at h
        cases h
    · rw [hread] at h
      exact ⟨text, List.mem_cons_self, hlong, (Except.error.inj h).symm⟩

theorem collects_ofDeclared {texts : List String} (h : ofDeclared texts = .ok a) :
    a.Collects (texts.flatMap fun s => (Spelling.normalise s).toList) := by
  obtain ⟨cs, hcs, rfl⟩ := exists_of_map_eq_ok h
  obtain ⟨hshort, rfl⟩ := declaredChars_eq_ok_iff.mp hcs
  refine (collects_ofChars _).of_mem_iff fun c => ?_
  rw [List.mem_filterMap, List.mem_flatMap]
  exact exists_congr fun s => and_congr_right fun hs => (hshort s hs).mem_toList_iff.symm

theorem exists_ofDeclared_eq_ok_iff {texts : List String} :
    (∃ a, ofDeclared texts = .ok a) ↔ ∀ s ∈ texts, Short s := by
  constructor
  · rintro ⟨a, h⟩
    obtain ⟨cs, hcs, -⟩ := exists_of_map_eq_ok h
    exact (declaredChars_eq_ok_iff.mp hcs).1
  · intro h
    exact ⟨_, by rw [ofDeclared, declaredChars_eq_ok_iff.mpr ⟨h, rfl⟩]; rfl⟩

theorem exists_of_ofDeclared_eq_error {texts : List String} {e : Error}
    (h : ofDeclared texts = .error e) : ∃ s ∈ texts, ¬ Short s ∧ e = .longAlphabetSymbol s := by
  cases hchars : declaredChars texts with
  | ok cs =>
    rw [ofDeclared, hchars] at h
    cases h
  | error e' =>
    rw [ofDeclared, hchars] at h
    obtain rfl := Except.error.inj h
    exact exists_of_declaredChars_eq_error hchars

theorem exists_ofDeclared_eq_error_iff {texts : List String} :
    (∃ e, ofDeclared texts = .error e) ↔ ∃ s ∈ texts, ¬ Short s := by
  constructor
  · rintro ⟨e, h⟩
    obtain ⟨s, hs, hlong, -⟩ := exists_of_ofDeclared_eq_error h
    exact ⟨s, hs, hlong⟩
  · rintro ⟨s, hs, hlong⟩
    cases hresult : ofDeclared texts with
    | error e => exact ⟨e, rfl⟩
    | ok a => exact absurd (exists_ofDeclared_eq_ok_iff.mp ⟨a, hresult⟩ s hs) hlong

/-! ## Numbers -/

theorem nodup_symbols (a : Alphabet) : a.symbols.Nodup := a.increasing.imp fun h => Char.ne_of_lt h

/-- A number stands for a character if and only if it is the number of that character. -/
theorem symbol?_eq_some_iff {id : Nat} {c : Char} :
    a.symbol? id = some c ↔ a.idOf? c = some id := by
  rw [symbol?, idOf?, List.idxOf?_eq_some_iff, List.getElem?_eq_some_iff]
  constructor
  · rintro ⟨hid, rfl⟩
    refine ⟨hid, rfl, fun j hj heq => ?_⟩
    have := (a.nodup_symbols.getElem_inj_iff).mp heq
    omega
  · rintro ⟨hid, heq, -⟩
    exact ⟨hid, heq⟩

theorem lt_size_of_symbol? {id : Nat} {c : Char} (h : a.symbol? id = some c) : id < a.size :=
  (List.getElem?_eq_some_iff.mp h).1

theorem idOf?_eq_none_iff {c : Char} : a.idOf? c = none ↔ c ∉ a.symbols := by
  rw [idOf?, List.idxOf?_eq_none_iff]

/-- The symbols in their order, with their numbers. -/
def numbering (a : Alphabet) : {c // c ∈ a.symbols} ≃o Fin a.size :=
  (a.increasing.sortedLT.getIso a.symbols).symm

theorem symbol?_eq_numbering (i : Fin a.size) : a.symbol? i = some (a.numbering.symm i : Char) :=
  List.getElem?_eq_getElem i.isLt

theorem idOf?_eq_numbering (c : {c // c ∈ a.symbols}) :
    a.idOf? c = some (a.numbering c : Nat) := by
  rw [← symbol?_eq_some_iff, symbol?_eq_numbering, OrderIso.symm_apply_apply]

/-- There are fewer characters than machine words of 32 bits, so a number fits into one, and the last
of these words is no number. -/
theorem size_lt_word (a : Alphabet) : a.size < 2 ^ 32 - 1 := by
  have hsub : (a.symbols.map Char.toNat).toFinset ⊆ Finset.range 0x110000 := by
    intro n hn
    obtain ⟨c, -, rfl⟩ := List.mem_map.mp (List.mem_toFinset.mp hn)
    rw [Finset.mem_range]
    have := c.valid
    simp only [UInt32.isValidChar, Nat.isValidChar] at this
    have : c.toNat = c.val.toNat := rfl
    omega
  have hnodup : (a.symbols.map Char.toNat).Nodup :=
    a.nodup_symbols.map fun c d h => Char.ext (UInt32.toNat_inj.mp h)
  have hcard := Finset.card_le_card hsub
  rw [List.toFinset_card_of_nodup hnodup, List.length_map, Finset.card_range] at hcard
  rw [size]
  omega

/-! ## Words -/

theorem mapM_idOf?_eq_some_iff {cs : List Char} {ids : List Nat} :
    cs.mapM a.idOf? = some ids ↔ ids.map a.symbol? = cs.map some := by
  induction cs generalizing ids with
  | nil =>
    constructor
    · intro h
      obtain rfl := Option.some.inj h
      rfl
    · intro h
      obtain rfl := List.map_eq_nil_iff.mp h
      rfl
  | cons c rest ih =>
    rw [List.mapM_cons]
    constructor
    · intro h
      obtain ⟨id, hid, h⟩ := Option.bind_eq_some_iff.mp h
      obtain ⟨others, hothers, h⟩ := Option.bind_eq_some_iff.mp h
      obtain rfl := Option.some.inj h
      rw [List.map_cons, List.map_cons, symbol?_eq_some_iff.mpr hid, ih.mp hothers]
    · intro h
      obtain ⟨id, others, rfl, hid, hothers⟩ := List.map_eq_cons_iff.mp h
      rw [symbol?_eq_some_iff.mp hid, ih.mpr hothers]
      rfl

theorem exists_mapM_idOf?_iff {cs : List Char} :
    (∃ ids, cs.mapM a.idOf? = some ids) ↔ ∀ c ∈ cs, c ∈ a.symbols := by
  constructor
  · rintro ⟨ids, h⟩ c hc
    have hmem : some c ∈ ids.map a.symbol? :=
      mapM_idOf?_eq_some_iff.mp h ▸ List.mem_map_of_mem hc
    obtain ⟨id, -, hid⟩ := List.mem_map.mp hmem
    exact List.mem_of_getElem? hid
  · intro h
    refine ⟨_, mapM_eq_some_map (g := fun c => a.symbols.idxOf c) fun c hc => ?_⟩
    exact idOf?_eq_numbering ⟨c, h c hc⟩

/-- **An alphabet is an ordered set of symbols.** From a list of characters, a text, a regex or a list
of texts it takes the characters in canonical form, for a regex without the metacharacters, and leaves
`∅` out. It puts them into increasing order, each once. A list of texts is refused if and only if one of
them stands for two characters or more, and the error names such a text.

The symbols and the numbers below the size of the alphabet are in bijection, and in the same order;
other characters have no number and other numbers no symbol. A number fits into a machine word and is
not the last one of these. A word has numbers if and only if it is made of symbols, and these are the
numbers that spell it.

A union has the symbols of both alphabets. It is commutative, associative and idempotent. -/
theorem alphabets_are_ordered_sets :
    ((∀ cs, (ofChars cs).Collects cs) ∧
      (∀ text, (ofText text).Collects (Spelling.normalise text).toList) ∧
      (∀ text, (infer text).Collects
        ((Spelling.normalise text).toList.filter fun c => !Spelling.isMetacharacter c)) ∧
      ∀ texts,
        (∀ a, ofDeclared texts = .ok a →
          a.Collects (texts.flatMap fun s => (Spelling.normalise s).toList)) ∧
        ((∃ e, ofDeclared texts = .error e) ↔
          ∃ s ∈ texts, 2 ≤ (Spelling.normalise s).toList.length) ∧
        ∀ e, ofDeclared texts = .error e → ∃ s ∈ texts,
          2 ≤ (Spelling.normalise s).toList.length ∧ e = .longAlphabetSymbol s) ∧
    (∀ a : Alphabet,
      (∀ c : {c // c ∈ a.symbols}, a.idOf? c = some (a.numbering c : Nat)) ∧
      (∀ i : Fin a.size, a.symbol? i = some (a.numbering.symm i : Char)) ∧
      (∀ c, a.idOf? c = none ↔ c ∉ a.symbols) ∧ (∀ i, a.symbol? i = none ↔ a.size ≤ i) ∧
      a.size < 2 ^ 32 - 1 ∧
      ∀ w, ((∃ ids, a.encode? w = some ids) ↔ ∀ c ∈ w.toList, c ∈ a.symbols) ∧
        ∀ ids, a.encode? w = some ids ↔ ids.map a.symbol? = w.toList.map some) ∧
    ∀ a b : Alphabet, (∀ c, c ∈ (a.union b).symbols ↔ c ∈ a.symbols ∨ c ∈ b.symbols) ∧
      a.union b = b.union a ∧ (∀ c, (a.union b).union c = a.union (b.union c)) ∧ a.union a = a := by
  have hlong : ∀ s, 2 ≤ (Spelling.normalise s).toList.length ↔ ¬ Short s := fun _ => Nat.not_le.symm
  simp only [hlong]
  refine ⟨⟨collects_ofChars, fun _ => collects_ofChars _, fun _ => collects_ofChars _,
    fun _ => ⟨fun _ => collects_ofDeclared, exists_ofDeclared_eq_error_iff,
      fun _ => exists_of_ofDeclared_eq_error⟩⟩, fun a => ?_, fun a b => ?_⟩
  · exact ⟨idOf?_eq_numbering, symbol?_eq_numbering, fun _ => idOf?_eq_none_iff,
      fun _ => List.getElem?_eq_none_iff, a.size_lt_word,
      fun _ => ⟨exists_mapM_idOf?_iff, fun _ => mapM_idOf?_eq_some_iff⟩⟩
  · exact ⟨fun _ => mem_union, union_comm a b, union_assoc a b, union_self a⟩

/-- The case of texts that repeat a symbol, stand for nothing or spell it in another way, and of a text
with two characters. -/
theorem alphabets_are_ordered_sets_of_texts :
    (∃ a, ofDeclared ["∪", "b", "ε", "∅", "b"] = .ok a ∧
      a.Collects (["∪", "b", "ε", "∅", "b"].flatMap fun s => (Spelling.normalise s).toList) ∧
      a.idOf? 'b' = some 0 ∧ a.symbol? 1 = some '|') ∧
    ∃ e, ofDeclared ["a", "εbc"] = .error e ∧
      ∃ s ∈ ["a", "εbc"], 2 ≤ (Spelling.normalise s).toList.length ∧ e = .longAlphabetSymbol s := by
  obtain ⟨⟨-, -, -, hdeclared⟩, -, -⟩ := alphabets_are_ordered_sets
  have hshort : ofDeclared ["∪", "b", "ε", "∅", "b"] = .ok (ofChars ['|', 'b', '∅', 'b']) := by cbv
  have hlong : ofDeclared ["a", "εbc"] = .error (.longAlphabetSymbol "εbc") := by cbv
  exact ⟨⟨_, hshort, (hdeclared _).1 _ hshort, by decide, by decide⟩, _, hlong,
    (hdeclared _).2.2 _ hlong⟩

end Alphabet

end RegularLanguages
