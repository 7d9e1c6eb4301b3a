import Mathlib.Data.List.Induction
import Mathlib.Data.Nat.Digits.Defs
import RegularLanguages.Proofs.Lists
import RegularLanguages.Proofs.Regex.Rules
import RegularLanguages.Regex.Compiler

/-!
# Counts of repetitions

A count is a row of decimal digits, at least one. The compiler reads its value digit by digit from
the left, while `decimalValue` is the sum of the digits, each weighted by a power of ten.

In the grammar a count is a digit, or a count with one more digit behind it. So it has exactly one
tree, which leans to the left (`treeOf_count_iff`).
-/

namespace RegularLanguages.Regex

/-- The number that a row of decimal digits stands for. -/
def decimalValue (text : String) : Nat :=
  Nat.ofDigits 10 (text.toList.map fun c => c.toNat - '0'.toNat).reverse

/-- A row of decimal digits, at least one. -/
def IsDecimal (text : String) : Prop := text.toList ≠ [] ∧ ∀ c ∈ text.toList, c.isDigit = true

/-! ## Values -/

/-- Read from the left: the value so far becomes ten times as large when one more digit follows. -/
theorem decimalValue_eq_foldl (text : String) : decimalValue text =
    text.toList.foldl (fun value c => 10 * value + (c.toNat - '0'.toNat)) 0 := by
  rw [decimalValue, Nat.ofDigits_eq_foldr, List.foldr_reverse, List.foldl_map]
  simp [Nat.add_comm]

theorem countValue?_of_isDecimal {text : String} (h : IsDecimal text) :
    countValue? text = some (decimalValue text) := by
  obtain ⟨hne, hdigits⟩ := h
  have hvalue : decimal? text.toList = some (decimalValue text) := by
    have hempty : text.toList.isEmpty = false := by simpa using hne
    have hall : text.toList.all Char.isDigit = true := List.all_eq_true.mpr hdigits
    rw [decimal?, hempty, hall, decimalValue_eq_foldl]
    simp
  unfold countValue?
  split
  · next cs hplus =>
    -- a plus sign is no digit
    rw [hplus] at hdigits
    cases hdigits '+' List.mem_cons_self
  · exact hvalue

theorem isDecimal_toString (n : Nat) : IsDecimal (toString n) := by
  rw [IsDecimal, Nat.toString_eq_ofList_toDigits, String.toList_ofList]
  exact ⟨Nat.toDigits_ne_nil, fun _ => Nat.isDigit_of_mem_toDigits (by decide) (by decide)⟩

/-- A number is read back from its decimal digits. -/
theorem decimalValue_toString (n : Nat) : decimalValue (toString n) = n := by
  rw [decimalValue_eq_foldl, Nat.toString_eq_ofList_toDigits, String.toList_ofList,
    ← Nat.ofDigitChars_eq_foldl, Nat.ofDigitChars_ten_toDigits]

/-! ## Trees -/

variable {S : Alphabet} {t : ParseTree}

theorem isDigit_iff {c : Char} : c.isDigit = true ↔ c ∈ decimalDigits := by
  constructor
  · intro h
    obtain ⟨hle, hge⟩ := Char.isDigit_iff_toNat.mp h
    have hall : ∀ n < 58, 48 ≤ n → Char.ofNat n ∈ decimalDigits := by decide
    have hmem := hall c.toNat (Nat.lt_succ_of_le hge) hle
    rwa [Char.ofNat_toNat] at hmem
  · intro h
    have hall : decimalDigits.all Char.isDigit = true := by decide
    exact List.all_eq_true.mp hall c h

/-- The tree of a digit. -/
def digitTree (c : Char) : ParseTree := .node (16 + decimalDigits.idxOf c) .digits [.leaf c]

/-- The tree of a row of digits; no row of digits is empty. -/
def countTree : List Char → ParseTree
  | [] => .node 14 .digits []
  | c :: rest =>
    rest.foldl (fun t d => .node 15 .digits [t, digitTree d]) (.node 14 .digits [digitTree c])

theorem countTree_append_singleton {cs : List Char} (hcs : cs ≠ []) (d : Char) :
    countTree (cs ++ [d]) = .node 15 .digits [countTree cs, digitTree d] := by
  cases cs with
  | nil => exact absurd rfl hcs
  | cons c rest => rw [List.cons_append, countTree, List.foldl_append, countTree]; rfl

theorem exists_countTree_eq (cs : List Char) :
    ∃ i children, countTree cs = .node i .digits children := by
  -- the tree leans to the left, so its root belongs to the last digit
  rcases List.eq_nil_or_concat' cs with rfl | ⟨rest, d, rfl⟩
  · exact ⟨14, [], rfl⟩
  · by_cases hrest : rest = []
    · subst hrest
      exact ⟨14, [digitTree d], rfl⟩
    · exact ⟨15, _, countTree_append_singleton hrest d⟩

theorem treeOf_digit_iff : TreeOf S "D" t ↔ ∃ c, c.isDigit = true ∧ t = digitTree c := by
  have hnodup : decimalDigits.Nodup := by decide
  rw [treeOf_digit]
  constructor
  · rintro ⟨k, c, rfl, hc⟩
    obtain ⟨hmem, rfl⟩ := (getElem?_eq_some_iff_idxOf hnodup).mp hc
    exact ⟨c, isDigit_iff.mpr hmem, rfl⟩
  · rintro ⟨c, hc, rfl⟩
    exact ⟨_, c, rfl, (getElem?_eq_some_iff_idxOf hnodup).mpr ⟨isDigit_iff.mp hc, rfl⟩⟩

theorem leaves_countTree {cs : List Char} (hcs : cs ≠ []) : (countTree cs).leaves = cs := by
  induction cs using List.reverseRecOn with
  | nil => exact absurd rfl hcs
  | append_singleton rest d ih =>
    by_cases hrest : rest = []
    · subst hrest
      rfl
    · rw [countTree_append_singleton hrest, ParseTree.leaves_node, List.flatMap_cons, ih hrest]
      rfl

/-- **A row of digits has one tree.** -/
theorem treeOf_count_iff :
    TreeOf S "I" t ↔ ∃ cs, cs ≠ [] ∧ (∀ c ∈ cs, c.isDigit = true) ∧ t = countTree cs := by
  constructor
  · intro h
    induction t using ParseTree.recOnChildren with
    | leaf c =>
      rcases treeOf_count.mp h with ⟨a, heq, -⟩ | ⟨a, b, heq, -⟩
      · cases heq
      · cases heq
    | node i kind children ih =>
      rcases treeOf_count.mp h with ⟨a, heq, ha⟩ | ⟨a, b, heq, ha, hb⟩
      · obtain ⟨c, hc, rfl⟩ := treeOf_digit_iff.mp ha
        exact ⟨[c], List.cons_ne_nil _ _, by simpa using hc, heq⟩
      · obtain ⟨rfl, rfl, rfl⟩ := ParseTree.node.inj heq
        obtain ⟨cs, hcs, hdigits, rfl⟩ := ih a List.mem_cons_self ha
        obtain ⟨d, hd, rfl⟩ := treeOf_digit_iff.mp hb
        refine ⟨cs ++ [d], by simp, ?_, (countTree_append_singleton hcs d).symm⟩
        exact List.forall_mem_append.mpr ⟨hdigits, by simpa using hd⟩
  · rintro ⟨cs, hcs, hdigits, rfl⟩
    induction cs using List.reverseRecOn with
    | nil => exact absurd rfl hcs
    | append_singleton rest d ih =>
      obtain ⟨hrestDigits, hd⟩ := List.forall_mem_append.mp hdigits
      have hlast : TreeOf S "D" (digitTree d) :=
        treeOf_digit_iff.mpr ⟨d, hd d (List.mem_singleton_self d), rfl⟩
      by_cases hrest : rest = []
      · subst hrest
        exact treeOf_count.mpr (Or.inl ⟨_, rfl, hlast⟩)
      · rw [countTree_append_singleton hrest]
        exact treeOf_count.mpr (Or.inr ⟨_, _, rfl, ih hrest hrestDigits, hlast⟩)

end RegularLanguages.Regex
