import Mathlib.Data.List.Basic
import RegularLanguages.Regex.Compiler

/-!
# The spelling of a regex

A regex may be written with `∪` and `ε` or with `|` and nothing. The engine never finds out:
wherever it looks at the text of a regex (for the alphabet that the regex uses, for the parse trees,
and for the text that an error quotes), it looks at the canonical form. So texts with one canonical
form compile to the same automaton or fail with the same error (`compileRegex_congr`).

The canonical form and the written form of a text have the canonical form of the text. For the
written form this needs a look at the empty text, which is the only one that is not written
character by character.
-/

namespace RegularLanguages

/-! ## Canonical forms -/

namespace Spelling

/-- Metacharacters are canonical. -/
theorem canonicalChar?_of_isMetacharacter {c : Char} (h : isMetacharacter c = true) :
    canonicalChar? c = some c := by
  refine canonicalChar?_of_ne ⟨?_, ?_⟩
  · rintro rfl
    cases h
  · rintro rfl
    cases h

/-- A text of canonical characters is its own canonical form. -/
theorem normalise_eq_self {text : String} (h : ∀ c ∈ text.toList, canonicalChar? c = some c) :
    normalise text = text := by
  rw [← String.toList_inj, toList_normalise, List.filterMap_congr h, List.filterMap_some]

/-- **Bringing a text into canonical form twice changes nothing.** -/
theorem normalise_normalise (text : String) : normalise (normalise text) = normalise text :=
  normalise_eq_self fun _ hc => canonicalChar?_of_mem_normalise hc

/-- **The written form of a text is read back as the text.** -/
theorem normalise_display (text : String) : normalise (display text) = normalise text := by
  rw [← String.toList_inj, toList_normalise, toList_normalise]
  unfold display
  by_cases hempty : text.toList.isEmpty = true
  · -- the written form is `ε`, which stands for nothing
    rw [if_pos hempty, List.isEmpty_iff.mp hempty]
    decide
  · rw [if_neg hempty, String.toList_ofList, List.filterMap_map]
    exact List.filterMap_congr fun c _ => canonicalChar?_displayChar c

end Spelling

open Spelling

variable {u v : String}

/-! ## Texts with one canonical form -/

/-- The symbols of a regex are those of its canonical form. -/
theorem Alphabet.infer_congr (h : normalise u = normalise v) : infer u = infer v := by
  rw [infer, infer, h]

namespace Compiler

/-- A compiler reads the same regex from both texts, or gives the same error, which quotes the
canonical form in both cases. -/
theorem parse_congr (c : Compiler) (h : normalise u = normalise v) : c.parse u = c.parse v := by
  rw [parse, parse, h]

theorem compile_congr (c : Compiler) (h : normalise u = normalise v) :
    c.compile u = c.compile v := by
  rw [compile, compile, c.parse_congr h]

end Compiler

/-- **Texts with one canonical form compile alike**, also where the alphabet is the one of the
symbols that the regex uses. -/
theorem compileRegex_congr (h : normalise u = normalise v) (alphabet : Option Alphabet)
    (limits : Limits) : compileRegex u alphabet limits = compileRegex v alphabet limits := by
  have hcompile : (fun c : Compiler => c.compile u) = fun c => c.compile v :=
    funext fun c => c.compile_congr h
  rw [compileRegex, compileRegex, Alphabet.infer_congr h, hcompile]

/-- **The spelling of a regex does not matter.** The canonical form and the written form of a text
have the canonical form of the text, and they use its symbols. Over every alphabet, given or taken
from the regex, and under all limits, both compile as the text does: to the same automaton, with the
same numbers, or to the same error, hence with the same message. -/
theorem compileRegex_spelling (text : String) :
    normalise (normalise text) = normalise text ∧ normalise (display text) = normalise text ∧
      ∀ spelled ∈ [normalise text, display text],
        Alphabet.infer spelled = Alphabet.infer text ∧
          ∀ (alphabet : Option Alphabet) (limits : Limits),
            compileRegex spelled alphabet limits = compileRegex text alphabet limits := by
  refine ⟨normalise_normalise text, normalise_display text, fun spelled hspelled => ?_⟩
  have hsame : normalise spelled = normalise text := by
    rcases List.mem_pair.mp hspelled with rfl | rfl
    · exact normalise_normalise text
    · exact normalise_display text
  exact ⟨Alphabet.infer_congr hsame, compileRegex_congr hsame⟩

end RegularLanguages
