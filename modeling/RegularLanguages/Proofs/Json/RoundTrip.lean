import Mathlib.Data.List.TakeWhile
import RegularLanguages.Json.Reader
import RegularLanguages.Proofs.Json.Scanning
import RegularLanguages.Proofs.Regex.Count

/-!
# Reading what was written

The machine that reads tokens comes back with the value whose tokens it was fed. A value inside a
list or an object is delivered there, so the statement is about any stack of open lists and objects
(`feedAll_tokens`). With the scanner this makes reading a left inverse of writing (`parse?_render`).

A number is kept as its literal. The decimal digits of a whole number are such a literal, without
needless zeros in front, and its value is read back from them.
-/

namespace RegularLanguages.Json

/-! ## Feeding the tokens of a value -/

theorem feedAll_append (ts ts' : List Token) (state : State) :
    feedAll state (ts ++ ts') = (feedAll state ts).bind fun next => feedAll next ts' := by
  induction ts generalizing state with
  | nil => rfl
  | cons token ts ih =>
    rw [List.cons_append, feedAll, feedAll]
    cases feed state token with
    | none => rfl
    | some next => exact ih next

/-- The first item of a list is read like any other value of the list. -/
theorem feedAll_firstItem (v : Json) (stack : List Frame) :
    feedAll (.firstItem stack) v.tokens = feedAll (.value (.array [] :: stack)) v.tokens := by
  cases v with
  | array items => cases items <;> rfl
  | object members =>
    cases members with
    | nil => rfl
    | cons member members => rfl
  | _ => rfl

mutual

/-- **A value is delivered when its tokens are read.** -/
theorem feedAll_tokens : ∀ (v : Json) (stack : List Frame),
    feedAll (.value stack) v.tokens = some (deliver v stack)
  | null, _ => rfl
  | bool _, _ => rfl
  | number _, _ => rfl
  | string _, _ => rfl
  | array [], _ => rfl
  | array (item :: items), stack => by
    have hitem := feedAll_tokens item (.array [] :: stack)
    rw [← feedAll_firstItem] at hitem
    have hitems := feedAll_tokensOfItems items [item] stack
    show feedAll (.firstItem stack) (item.tokens ++ tokensOfItems items ++ [.closeBracket]) = _
    rw [feedAll_append, feedAll_append, hitem, Option.bind_some, deliver, hitems, Option.bind_some]
    show some (deliver (.array (items.reverse ++ [item]).reverse) stack) = _
    rw [List.reverse_append, List.reverse_reverse, List.reverse_singleton, List.singleton_append]
  | object [], _ => rfl
  | object ((key, value) :: members), stack => by
    have hvalue := feedAll_tokens value (.object [] key :: stack)
    have hmembers := feedAll_tokensOfMembers members [(key, value)] stack
    show feedAll (.value (.object [] key :: stack))
      (value.tokens ++ tokensOfMembers members ++ [.closeBrace]) = _
    rw [feedAll_append, feedAll_append, hvalue, Option.bind_some, deliver, hmembers,
      Option.bind_some]
    show some (deliver (.object (members.reverse ++ [(key, value)]).reverse) stack) = _
    rw [List.reverse_append, List.reverse_reverse, List.reverse_singleton, List.singleton_append]

/-- Further items are put in front of those that were read. -/
theorem feedAll_tokensOfItems : ∀ (items before : List Json) (stack : List Frame),
    feedAll (.afterItem before stack) (tokensOfItems items) =
      some (.afterItem (items.reverse ++ before) stack)
  | [], _, _ => rfl
  | item :: items, before, stack => by
    have hitem := feedAll_tokens item (.array before :: stack)
    show feedAll (.value (.array before :: stack)) (item.tokens ++ tokensOfItems items) = _
    rw [feedAll_append, hitem, Option.bind_some]
    have hitems := feedAll_tokensOfItems items (item :: before) stack
    rw [List.reverse_cons, List.append_assoc]
    exact hitems

/-- Further members are put in front of those that were read. -/
theorem feedAll_tokensOfMembers :
    ∀ (members before : List (Option String × Json)) (stack : List Frame),
      feedAll (.afterMember before stack) (tokensOfMembers members) =
        some (.afterMember (members.reverse ++ before) stack)
  | [], _, _ => rfl
  | (key, value) :: members, before, stack => by
    have hvalue := feedAll_tokens value (.object before key :: stack)
    show feedAll (.value (.object before key :: stack)) (value.tokens ++ tokensOfMembers members) = _
    rw [feedAll_append, hvalue, Option.bind_some]
    have hmembers := feedAll_tokensOfMembers members ((key, value) :: before) stack
    rw [List.reverse_cons, List.append_assoc]
    exact hmembers

end

/-- **Reading undoes writing**, for all values whose numbers are numerals. -/
theorem parse?_render (v : Json) (h : Numeric v.tokens) : parse? v.render = some v := by
  have hscan : scan v.renderChars = some v.tokens := by
    have hscans := scans_renderChars v h [] ends_nil
    unfold Scans at hscans
    rw [List.append_nil] at hscans
    rw [hscans, scan, Option.map_some, List.append_nil]
  rw [parse?, render, String.toList_ofList, hscan, Option.bind_some, feedAll_tokens]
  rfl

/-! ## Whole numbers -/

/-- A number above zero has no zero in front. -/
theorem head?_toDigits_ne_zero {n : Nat} (hn : n ≠ 0) : (Nat.toDigits 10 n).head? ≠ some '0' := by
  induction n using Nat.strongRecOn with
  | ind n ih =>
    by_cases hlt : n < 10
    · have hdigit : ∀ d < 10, d ≠ 0 → Nat.digitChar d ≠ '0' := by decide
      rw [Nat.toDigits_of_lt_base hlt]
      simpa using hdigit n hlt hn
    · have hfirst := ih (n / 10) (by omega) (by omega)
      rw [Nat.toDigits_of_base_le (by decide) (by omega), List.head?_append]
      cases hhead : (Nat.toDigits 10 (n / 10)).head? with
      | none => exact absurd (List.head?_eq_none_iff.mp hhead) Nat.toDigits_ne_nil
      | some c =>
        rw [hhead] at hfirst
        exact hfirst

theorem afterDigits?_of_all {cs : List Char} (hne : cs ≠ []) (h : ∀ c ∈ cs, c.isDigit = true) :
    afterDigits? cs = some [] := by
  have htake : cs.takeWhile Char.isDigit = cs := List.takeWhile_eq_self_iff.mpr h
  have hdrop : cs.dropWhile Char.isDigit = [] := List.dropWhile_eq_nil_iff.mpr h
  rw [afterDigits?, htake, hdrop, if_neg (by simpa using hne)]

/-- A row of digits without a zero in front is a whole number. -/
theorem isNumber_of_digits {cs : List Char} (hne : cs ≠ []) (h : ∀ c ∈ cs, c.isDigit = true)
    (hzero : cs.head? ≠ some '0') : isNumber cs = true := by
  have hinteger : afterInteger? cs = some [] := by
    unfold afterInteger?
    split
    · exact absurd rfl hzero
    · exact afterDigits?_of_all hne h
  unfold isNumber
  split
  · -- a minus sign is no digit
    cases h '-' List.mem_cons_self
  · show (((afterInteger? cs).bind afterFraction?).bind afterExponent? == some []) = true
    rw [hinteger]
    rfl

theorem isRunChar_of_isDigit {c : Char} (h : c.isDigit = true) : isRunChar c = true := by
  have hall : Regex.decimalDigits.all isRunChar = true := by decide
  exact List.all_eq_true.mp hall c (Regex.isDigit_iff.mp h)

theorem isNumeral_toString (n : Nat) : IsNumeral (toString n) := by
  obtain ⟨hne, hdigits⟩ := Regex.isDecimal_toString n
  refine ⟨?_, fun c hc => isRunChar_of_isDigit (hdigits c hc)⟩
  by_cases hn : n = 0
  · subst hn
    decide
  · have hfirst := head?_toDigits_ne_zero hn
    rw [← String.toList_ofList (l := Nat.toDigits 10 n), ← Nat.toString_eq_ofList_toDigits] at hfirst
    exact isNumber_of_digits hne hdigits hfirst

/-- A 32-bit number is read back from its decimal digits. -/
theorem uint32?_toString (n : UInt32) : (number (toString n.toNat)).uint32? = some n := by
  have hdigits := List.all_eq_true.mpr (Regex.isDecimal_toString n.toNat).2
  have hvalue := Regex.decimalValue_toString n.toNat
  rw [Regex.decimalValue_eq_foldl] at hvalue
  simp only [uint32?, hdigits, if_true, hvalue, if_pos n.toNat_lt_size, UInt32.ofNat_toNat]

end RegularLanguages.Json
