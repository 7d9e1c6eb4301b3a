/-!
# Spelling of regular expressions

People write the union operator as `∪` and the empty word as `ε`. The grammar knows `|` and the
empty text. `normalise` goes from the written form to the canonical one, `display` goes back.

## Mechanism

Both directions work character by character. `ε` has no canonical character, so it disappears;
the empty text has no character at all, so `display` shows it as `ε`. Neither direction touches
`∅`, which is spelled the same on both sides.
-/

namespace RegularLanguages.Spelling

/-! ## Special characters -/

/-- The written form of the union operator. -/
def unionSign : Char := '∪'

/-- The canonical form of the union operator. -/
def unionBar : Char := '|'

/-- The written form of the empty word. -/
def emptyWordSign : Char := 'ε'

/-- The sign of the empty language. It is never a symbol. -/
def emptySetSign : Char := '∅'

/-- The operators of the regex grammar, digits apart. -/
def operators : List Char := ['|', '*', '+', '^', '?', '(', ')']

/-- Characters with a meaning in the regex grammar: the operators and the ASCII digits. -/
def isMetacharacter (c : Char) : Bool := operators.contains c || c.isDigit

/-! ## Canonical form -/

/-- The canonical form of one character; none for `ε`. -/
def canonicalChar? (c : Char) : Option Char :=
  if c = unionSign then some unionBar
  else if c = emptyWordSign then none
  else some c

/-- A canonical character is its own canonical form. -/
theorem canonicalChar?_of_eq_some {c d : Char} (h : canonicalChar? c = some d) :
    canonicalChar? d = some d := by
  unfold canonicalChar? at h
  split at h
  · obtain rfl := Option.some.inj h
    decide
  · split at h
    · exact absurd h (by simp)
    · obtain rfl := Option.some.inj h
      simp_all [canonicalChar?]

/-- Only `∅` is spelled as `∅`. -/
theorem eq_of_canonicalChar?_emptySetSign {c : Char} (h : canonicalChar? c = some emptySetSign) :
    c = emptySetSign := by
  unfold canonicalChar? at h
  split at h
  · exact absurd h (by decide)
  · split at h
    · cases h
    · exact Option.some.inj h

/-- Brings a written symbol or text into canonical form. -/
def normalise (text : String) : String :=
  String.ofList (text.toList.filterMap canonicalChar?)

@[simp] theorem toList_normalise (text : String) :
    (normalise text).toList = text.toList.filterMap canonicalChar? := by
  simp [normalise]

/-- A character that is neither `∪` nor `ε` is its own canonical form. -/
theorem canonicalChar?_of_ne {c : Char} (h : c ≠ unionSign ∧ c ≠ emptyWordSign) :
    canonicalChar? c = some c := by
  rw [canonicalChar?, if_neg h.1, if_neg h.2]

theorem canonicalChar?_of_mem_normalise {text : String} {c : Char} (h : c ∈ (normalise text).toList) :
    canonicalChar? c = some c := by
  rw [toList_normalise] at h
  obtain ⟨d, -, hd⟩ := List.mem_filterMap.mp h
  exact canonicalChar?_of_eq_some hd

/-- Bringing texts into canonical form goes piece by piece. -/
theorem normalise_append (u v : String) : normalise (u ++ v) = normalise u ++ normalise v := by
  rw [← String.toList_inj]
  simp

/-! ## Written form -/

/-- The written form of one canonical character. -/
def displayChar (c : Char) : Char := if c = unionBar then unionSign else c

/-- A written character is read back as the canonical form of the character it was written for. -/
theorem canonicalChar?_displayChar (c : Char) :
    canonicalChar? (displayChar c) = canonicalChar? c := by
  unfold displayChar
  split
  · next h => subst h; decide
  · rfl

/-- Brings a canonical symbol or text into the form that people are shown. -/
def display (text : String) : String :=
  if text.toList.isEmpty then String.singleton emptyWordSign
  else String.ofList (text.toList.map displayChar)

end RegularLanguages.Spelling
