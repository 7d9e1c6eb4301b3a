import RegularLanguages.Proofs.Regex.Layer

/-!
# What can stand behind a regex

Where a regex ends in a longer text is told by what stands behind it. Each layer has its own way to
go on: a repetition with `*`, `+` or `^` and a count, an option with `?`, a concatenation with an atom
and a union with `|` (`Extends`). Behind a regex of a layer stands something that goes on neither
this layer nor a stronger one (`Stops`).

These ways exclude each other only if the symbols of the alphabet are no metacharacters. The one
exception is `^`: a symbol `^` is told apart from the operator by the next character, because the
operator has a digit behind it and a symbol never has (`Layered.begins`).
-/

namespace RegularLanguages.Regex

open Spelling (isMetacharacter)

variable {S : Alphabet} {l : Layer} {x : Regex} {c : Char} {u rest : List Char}

/-! ## Harmless alphabets -/

/-- No symbol is a metacharacter, except perhaps `^`. -/
def Harmless (S : Alphabet) : Prop := ∀ c ∈ S.symbols, isMetacharacter c = true → c = '^'

theorem Harmless.not_mem (hS : Harmless S) (hc : isMetacharacter c = true) (hne : c ≠ '^') :
    c ∉ S.symbols :=
  fun hmem => hne (hS c hmem hc)

theorem isMetacharacter_of_isDigit (h : c.isDigit = true) : isMetacharacter c = true := by
  simp [isMetacharacter, h]

/-! ## Going on and stopping -/

/-- The first character is a digit. -/
def startsWithDigit : List Char → Bool
  | [] => false
  | c :: _ => c.isDigit

/-- The text begins in a way in which a regex of the layer goes on. A digit goes on a count. -/
def Extends (S : Alphabet) : Layer → List Char → Prop
  | .repetition, c :: rest =>
    c = '*' ∨ c = '+' ∨ c.isDigit = true ∨ c = '^' ∧ startsWithDigit rest = true
  | .option, c :: _ => c = '?'
  | .concatenation, c :: _ => c = '(' ∨ c ∈ S.symbols
  | .union, c :: _ => c = '|'
  | _, _ => False

/-- The text goes on neither a regex of the layer nor one of a stronger layer. -/
def Stops (S : Alphabet) (l : Layer) (u : List Char) : Prop :=
  ∀ k : Layer, k.height ≤ l.height → ¬ Extends S k u

theorem Stops.not_extends (h : Stops S l u) : ¬ Extends S l u := h l (Nat.le_refl _)

theorem Stops.mono {k : Layer} (h : Stops S l u) (hle : k.height ≤ l.height) : Stops S k u :=
  fun k' hk' => h k' (Nat.le_trans hk' hle)

theorem Stops.startsWithDigit (h : Stops S l u) (hl : 1 ≤ l.height) : startsWithDigit u = false := by
  cases u with
  | nil => rfl
  | cons c rest =>
    by_contra hdigit
    rw [Bool.not_eq_false] at hdigit
    exact h .repetition hl (Or.inr (Or.inr (Or.inl hdigit)))

theorem stops_nil : Stops S l [] := by
  intro k _
  cases k <;> exact id

/-- Nothing goes on an atom. -/
theorem stops_atom : Stops S .atom u := by
  intro k hk
  cases k with
  | atom => cases u <;> exact id
  | repetition | option | concatenation | union => exact absurd hk (by decide)

theorem stops_mark : Stops S .repetition ('?' :: rest) := by
  intro k hk h
  cases k with
  | atom => exact h
  | repetition => simp [Extends] at h
  | option | concatenation | union => exact absurd hk (by decide)

theorem Harmless.stops_bar (hS : Harmless S) : Stops S .concatenation ('|' :: rest) := by
  intro k hk h
  cases k with
  | atom => exact h
  | repetition | option => simp [Extends] at h
  | concatenation =>
    have hbar : '|' ∉ S.symbols := hS.not_mem (by decide) (by decide)
    simp [Extends, hbar] at h
  | union => exact absurd hk (by decide)

theorem Harmless.stops_close (hS : Harmless S) : Stops S l (')' :: rest) := by
  intro k _ h
  cases k with
  | atom => exact h
  | repetition | option | union => simp [Extends] at h
  | concatenation =>
    have hclose : ')' ∉ S.symbols := hS.not_mem (by decide) (by decide)
    simp [Extends, hclose] at h

/-! ## How a regex begins -/

/-- The text begins with a parenthesis or a symbol. If the symbol is `^`, no digit is next. -/
def Begins (S : Alphabet) (u : List Char) : Prop :=
  ∃ c rest, u = c :: rest ∧ (c = '(' ∨ c ∈ S.symbols) ∧ (c = '^' → startsWithDigit rest = false)

theorem Begins.extends_concatenation (h : Begins S u) : Extends S .concatenation u := by
  obtain ⟨c, rest, rfl, hc, -⟩ := h
  exact hc

/-- What begins like a regex goes on no option and no repetition. -/
theorem Begins.stops (h : Begins S u) (hS : Harmless S) : Stops S .option u := by
  obtain ⟨c, rest, rfl, hc, hcaret⟩ := h
  have hmeta : isMetacharacter c = true → c = '(' ∨ c = '^' := fun h => hc.imp id fun h' => hS c h' h
  intro k hk h
  cases k with
  | atom => exact h
  | repetition =>
    rcases h with rfl | rfl | hdigit | ⟨rfl, hdigit⟩
    · exact absurd (hmeta (by decide)) (by decide)
    · exact absurd (hmeta (by decide)) (by decide)
    · rcases hmeta (isMetacharacter_of_isDigit hdigit) with rfl | rfl
      · exact absurd hdigit (by decide)
      · exact absurd hdigit (by decide)
    · rw [hcaret rfl] at hdigit
      cases hdigit
  | option =>
    obtain rfl : c = '?' := h
    exact absurd (hmeta (by decide)) (by decide)
  | concatenation | union => exact absurd hk (by decide)

/-- **A regex that binds stronger than a union begins with an atom**, and its first character is no
operator unless a digit is behind it. -/
theorem Layered.begins (h : Layered S l x) (hS : Harmless S) (hl : l ≠ .union)
    (hu : startsWithDigit u = false) : Begins S (x.toString.toList ++ u) := by
  induction h generalizing u with
  | union | emptyUnion | empty | ofConcatenation => exact absurd rfl hl
  | concatenation _ _ iha ihb =>
    have hb := ihb (by decide) hu
    have hdigit := (hb.stops hS).startsWithDigit (by decide)
    simpa [Regex.toString] using iha (by decide) hdigit
  | option _ ih => simpa [Regex.toString] using ih (u := '?' :: u) (by decide) (by rfl)
  | star _ ih => simpa [Regex.toString] using ih (u := '*' :: u) (by decide) (by rfl)
  | plus _ ih => simpa [Regex.toString] using ih (u := '+' :: u) (by decide) (by rfl)
  | @repetition a count _ _ ih =>
    simpa [Regex.toString] using ih (u := '^' :: (count.toList ++ u)) (by decide) (by rfl)
  | ofOption _ ih | ofRepetition _ ih | ofAtom _ ih => exact ih (by decide) hu
  | @paren a _ _ =>
    refine ⟨'(', a.toString.toList ++ ')' :: u, ?_, Or.inl rfl, fun h => absurd h (by decide)⟩
    simp [Regex.toString]
  | terminal hc => exact ⟨_, u, by simp [Regex.toString], Or.inr hc, fun _ => hu⟩

end RegularLanguages.Regex
