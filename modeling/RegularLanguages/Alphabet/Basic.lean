import RegularLanguages.Spelling

/-!
# Alphabets

An alphabet is a strictly increasing list of characters, by code point, without `∅`. The place of
a symbol in that list is its number. Two alphabets with the same symbols are equal, because a set of
characters has only one strictly increasing list.

## Mechanism

Every way to build an alphabet ends in `ofChars`, which inserts the characters one after the other
into a sorted list and skips those that are there already.
-/

namespace RegularLanguages

/-- A finite set of symbols, in the order of code points. -/
structure Alphabet where
  symbols : List Char
  increasing : symbols.Pairwise (· < ·)
  emptySet_not_mem : Spelling.emptySetSign ∉ symbols
  deriving DecidableEq

namespace Alphabet

/-! ## Sorted insertion -/

/-- Puts a character into its place in a sorted list, unless it is there. -/
def insertSorted (c : Char) : List Char → List Char
  | [] => [c]
  | d :: rest =>
    if c < d then c :: d :: rest else if c = d then d :: rest else d :: insertSorted c rest

theorem mem_insertSorted {c d : Char} {l : List Char} : d ∈ insertSorted c l ↔ d = c ∨ d ∈ l := by
  induction l with
  | nil => simp [insertSorted]
  | cons e rest ih =>
    unfold insertSorted
    split
    · simp
    · split
      · next h => subst h; simp
      · simp only [List.mem_cons, ih]
        exact or_left_comm

theorem pairwise_insertSorted {c : Char} {l : List Char} (h : l.Pairwise (· < ·)) :
    (insertSorted c l).Pairwise (· < ·) := by
  induction l with
  | nil => simp [insertSorted]
  | cons d rest ih =>
    obtain ⟨hd, hrest⟩ := List.pairwise_cons.1 h
    unfold insertSorted
    split
    · next hlt =>
      refine List.pairwise_cons.2 ⟨fun e he => ?_, h⟩
      rcases List.mem_cons.1 he with rfl | he
      · exact hlt
      · exact Char.lt_trans hlt (hd e he)
    · split
      · exact h
      · next hle hne =>
        refine List.pairwise_cons.2 ⟨fun e he => ?_, ih hrest⟩
        rcases mem_insertSorted.1 he with rfl | he
        · exact Decidable.byContradiction fun hlt =>
            hne (Char.le_antisymm (Char.not_lt.1 hlt) (Char.not_lt.1 hle))
        · exact hd e he

/-- The characters of a list, sorted and each once. -/
def sortedDistinct (cs : List Char) : List Char := cs.foldr insertSorted []

theorem mem_sortedDistinct {c : Char} {cs : List Char} : c ∈ sortedDistinct cs ↔ c ∈ cs := by
  induction cs with
  | nil => simp [sortedDistinct]
  | cons d rest ih =>
    rw [sortedDistinct, List.foldr_cons, mem_insertSorted, List.mem_cons]
    exact or_congr_right ih

theorem pairwise_sortedDistinct (cs : List Char) : (sortedDistinct cs).Pairwise (· < ·) := by
  induction cs with
  | nil => exact List.Pairwise.nil
  | cons d rest ih => exact pairwise_insertSorted ih

/-! ## Building an alphabet -/

/-- The alphabet of the given characters. `∅` never becomes a symbol. -/
def ofChars (cs : List Char) : Alphabet where
  symbols := sortedDistinct (cs.filter (· ≠ Spelling.emptySetSign))
  increasing := pairwise_sortedDistinct _
  emptySet_not_mem h := by simpa using mem_sortedDistinct.1 h

theorem mem_symbols_ofChars {c : Char} {cs : List Char} :
    c ∈ (ofChars cs).symbols ↔ c ∈ cs ∧ c ≠ Spelling.emptySetSign := by
  simp [ofChars, mem_sortedDistinct]

/-- The alphabet of a written text: `ε` adds nothing and `∪` stands for `|`. -/
def ofText (text : String) : Alphabet := ofChars (Spelling.normalise text).toList

/-- The symbols that a regex uses: its characters that are not metacharacters. -/
def infer (regex : String) : Alphabet :=
  ofChars ((Spelling.normalise regex).toList.filter fun c => !Spelling.isMetacharacter c)

/-! ## Symbols and their numbers -/

/-- The number of symbols. -/
def size (a : Alphabet) : Nat := a.symbols.length

/-- Every symbol number, in order. -/
def ids (a : Alphabet) : List Nat := List.range a.size

/-- The number of a symbol, if the alphabet has it. -/
def idOf? (a : Alphabet) (c : Char) : Option Nat := a.symbols.idxOf? c

/-- Whether a character is a symbol of the alphabet. -/
def contains (a : Alphabet) (c : Char) : Bool := (a.idOf? c).isSome

/-- The symbol with the given number. -/
def symbol? (a : Alphabet) (id : Nat) : Option Char := a.symbols[id]?

/-- The numbers of a word's characters; none if one of them is not a symbol. -/
def encode? (a : Alphabet) (word : String) : Option (List Nat) := word.toList.mapM a.idOf?

/-- The alphabet with the symbols of both. -/
def union (a b : Alphabet) : Alphabet := ofChars (a.symbols ++ b.symbols)

/-- What becomes of the numbers of `a` in `b`: place `i` holds the number in `b` of symbol `i` of
`a`. -/
def renumbering (a b : Alphabet) : Array (Option Nat) := (a.symbols.map b.idOf?).toArray

/-- The symbols in written form, between braces. -/
protected def toString (a : Alphabet) : String :=
  let written := a.symbols.map fun c => Spelling.display (String.singleton c)
  "\x7b" ++ ", ".intercalate written ++ "\x7d"

instance : ToString Alphabet := ⟨Alphabet.toString⟩

instance : EmptyCollection Alphabet := ⟨ofChars []⟩

end Alphabet

end RegularLanguages
