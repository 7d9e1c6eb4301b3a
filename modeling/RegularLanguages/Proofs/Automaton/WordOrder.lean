import Mathlib.Data.List.Shortlex
import Mathlib.Data.Char

/-!
# The order of words

Words are compared by length first and by code points second. A breadth-first search that tries the
symbols in order finds words in this order, because of `shortlex_append_singleton`: words that are
one character longer compare as the words that they go on from do, and then by the last character.
-/

namespace RegularLanguages

/-- `u` comes before `w`: it is shorter, or as long and earlier in the order of code points. -/
def Precedes (u w : String) : Prop := u.length < w.length ∨ u.length = w.length ∧ u < w

theorem precedes_iff {u w : String} :
    Precedes u w ↔ List.Shortlex (· < ·) u.toList w.toList := by
  rw [Precedes, List.shortlex_def, String.length_toList, String.length_toList, String.lt_iff]
  rfl

variable {u v w : List Char} {c d : Char}

theorem shortlex_trans (h : List.Shortlex (· < ·) u v) (h' : List.Shortlex (· < ·) v w) :
    List.Shortlex (· < ·) u w := by
  rw [List.shortlex_def] at h h' ⊢
  rcases h with h | ⟨hl, h⟩
  · rcases h' with h' | ⟨hl', -⟩
    · exact Or.inl (by omega)
    · exact Or.inl (by omega)
  · rcases h' with h' | ⟨hl', h'⟩
    · exact Or.inl (by omega)
    · exact Or.inr ⟨by omega, List.lex_trans (fun hab hbc => Char.lt_trans hab hbc) h h'⟩

theorem shortlex_irrefl (u : List Char) : ¬ List.Shortlex (· < ·) u u :=
  fun h => Std.Asymm.asymm _ _ h h

theorem shortlex_trichotomy (u v : List Char) :
    List.Shortlex (· < ·) u v ∨ u = v ∨ List.Shortlex (· < ·) v u := by
  by_cases h : List.Shortlex (· < ·) u v
  · exact Or.inl h
  · by_cases h' : List.Shortlex (· < ·) v u
    · exact Or.inr (Or.inr h')
    · exact Or.inr (Or.inl (Std.Trichotomous.trichotomous u v h h'))

/-- What follows does not matter once two words of one length differ. -/
theorem lex_append_of_length_eq {r : Char → Char → Prop} (h : List.Lex r u v)
    (hl : u.length = v.length) (s t : List Char) : List.Lex r (u ++ s) (v ++ t) := by
  induction h with
  | nil => cases hl
  | cons _ ih => exact .cons (ih (by simpa using hl))
  | rel hr => exact .rel hr

theorem shortlex_append_of_shortlex (h : List.Shortlex (· < ·) u v) :
    List.Shortlex (· < ·) (u ++ [c]) (v ++ [d]) := by
  rcases List.shortlex_def.mp h with h | ⟨hl, h⟩
  · exact .of_length_lt (by simpa using h)
  · exact .of_lex (by simpa using hl) (lex_append_of_length_eq h hl _ _)

/-- **Longer words compare as the words that they go on from, then by the last character.** -/
theorem shortlex_append_singleton :
    List.Shortlex (· < ·) (u ++ [c]) (v ++ [d]) ↔
      List.Shortlex (· < ·) u v ∨ u = v ∧ c < d := by
  constructor
  · intro h
    rcases shortlex_trichotomy u v with huv | rfl | hvu
    · exact Or.inl huv
    · refine Or.inr ⟨rfl, ?_⟩
      rcases lt_trichotomy c d with hcd | rfl | hdc
      · exact hcd
      · exact absurd h (shortlex_irrefl _)
      · have hrev : List.Shortlex (· < ·) (u ++ [d]) (u ++ [c]) :=
          .append_left ((List.shortlex_singleton_iff d c).mpr hdc) u
        exact absurd (shortlex_trans h hrev) (shortlex_irrefl _)
    · exact absurd (shortlex_trans h (shortlex_append_of_shortlex hvu)) (shortlex_irrefl _)
  · rintro (h | ⟨rfl, h⟩)
    · exact shortlex_append_of_shortlex h
    · exact .append_left ((List.shortlex_singleton_iff c d).mpr h) u

end RegularLanguages
