import RegularLanguages.Proofs.Automaton.Lift
import RegularLanguages.Proofs.Diagram.WellFormed
import RegularLanguages.Proofs.Regex.Language

/-!
# Constructed automata

The automata that a user of the library can get: basic ones, those of a diagram or a regex, and what
the algebra and the lifting to a larger alphabet make of them. `Constructed` says this as an
inductive predicate, so what every construction keeps holds for all of them.

Being well formed is such a property. Operands over different alphabets are aligned first, and this
keeps them well formed; the rest is known for operands over one alphabet.
-/

namespace RegularLanguages

open Automaton

namespace Automaton

variable {m a b : Automaton} {alphabet : Alphabet}

/-! ## Operators on operands over any alphabets -/

namespace WellFormed

theorem union (ha : a.WellFormed) (hb : b.WellFormed) : (a.union b).WellFormed := by
  obtain ⟨hl, hr, heq⟩ := wellFormed_align ha hb
  exact hl.unionAligned hr heq

theorem concat (ha : a.WellFormed) (hb : b.WellFormed) : (a.concat b).WellFormed := by
  obtain ⟨hl, hr, heq⟩ := wellFormed_align ha hb
  exact hl.concatAligned hr heq

theorem plus (ha : a.WellFormed) : a.plus.WellFormed := ha.concat ha.star

theorem optional (ha : a.WellFormed) : a.optional.WellFormed := ha.union (.emptyWord a.alphabet)

theorem power (ha : a.WellFormed) (n : Nat) : (a.power n).WellFormed := by
  have hself : a.Recognises a.alphabet some (a.language some) := ⟨ha, rfl, rfl⟩
  exact (hself.power n).wellFormed

theorem ofSymbol {id : Nat} (h : ofSymbol alphabet id = .ok m) : m.WellFormed := by
  unfold Automaton.ofSymbol at h
  split at h
  · next hid =>
    obtain rfl := Except.ok.inj h
    exact .singleEdge hid
  · cases h

theorem literal {c : Char} (h : literal alphabet c = .ok m) : m.WellFormed := by
  unfold Automaton.literal at h
  split at h
  · exact .ofSymbol h
  · cases h

end WellFormed

end Automaton

/-! ## Regexes -/

namespace Compiler

variable {c : Compiler} {m : Automaton}

/-- Whatever the counts of a regex are, its automaton is well formed if there is one. -/
theorem Built.wellFormed {x : Regex} (h : c.Built x m) : m.WellFormed := by
  induction h with
  | terminal h => exact .literal h
  | empty => exact .emptyWord c.alphabet
  | emptyUnion _ ih | option _ ih => exact ih.optional
  | union _ _ iha ihb => exact iha.union ihb
  | concatenation _ _ iha ihb => exact iha.concat ihb
  | star _ ih => exact ih.star
  | plus _ ih => exact ih.plus
  | paren _ ih => exact ih
  | repetition _ _ ih => exact ih.power _

theorem wellFormed_build {x : Regex} (h : c.build x = .ok m) : m.WellFormed :=
  (built_of_build h).wellFormed

theorem wellFormed_compile {text : String} (h : c.compile text = .ok m) : m.WellFormed := by
  obtain ⟨x, -, hx⟩ := exists_of_bind_eq_ok h
  exact wellFormed_build hx

end Compiler

/-! ## All constructions -/

namespace Automaton

variable {m : Automaton}

/-- What any finite sequence of the library's constructions gives. -/
inductive Constructed : Automaton → Prop
  | emptyLanguage (alphabet : Alphabet) : Constructed (emptyLanguage alphabet)
  | emptyWord (alphabet : Alphabet) : Constructed (emptyWord alphabet)
  | ofSymbol {alphabet : Alphabet} {id : Nat} {m : Automaton}
      (h : ofSymbol alphabet id = .ok m) : Constructed m
  | literal {alphabet : Alphabet} {c : Char} {m : Automaton}
      (h : literal alphabet c = .ok m) : Constructed m
  | union {a b : Automaton} (ha : Constructed a) (hb : Constructed b) : Constructed (a.union b)
  | concat {a b : Automaton} (ha : Constructed a) (hb : Constructed b) : Constructed (a.concat b)
  | star {a : Automaton} (ha : Constructed a) : Constructed a.star
  | plus {a : Automaton} (ha : Constructed a) : Constructed a.plus
  | optional {a : Automaton} (ha : Constructed a) : Constructed a.optional
  | power {a : Automaton} (ha : Constructed a) (count : Nat) : Constructed (a.power count)
  | lift {a m : Automaton} {alphabet : Alphabet} (ha : Constructed a)
      (h : a.lift alphabet = .ok m) : Constructed m
  | ofDiagram {d : Diagram} {m : Automaton} (h : d.toAutomaton = .ok m) : Constructed m
  | build {c : Compiler} {x : Regex} {m : Automaton} (h : c.build x = .ok m) : Constructed m
  | compile {c : Compiler} {text : String} {m : Automaton} (h : c.compile text = .ok m) :
      Constructed m

theorem Constructed.wellFormed (h : m.Constructed) : m.WellFormed := by
  induction h with
  | emptyLanguage alphabet => exact wellFormed_ofStart alphabet
  | emptyWord alphabet => exact .emptyWord alphabet
  | ofSymbol h => exact .ofSymbol h
  | literal h => exact .literal h
  | union _ _ iha ihb => exact iha.union ihb
  | concat _ _ iha ihb => exact iha.concat ihb
  | star _ ih => exact ih.star
  | plus _ ih => exact ih.plus
  | optional _ ih => exact ih.optional
  | power _ count ih => exact ih.power count
  | lift _ h ih => exact ih.lift h
  | ofDiagram h => exact (Diagram.fits_toAutomaton h).wellFormed
  | build h => exact Compiler.wellFormed_build h
  | compile h => exact Compiler.wellFormed_compile h

/-- **Every constructed automaton keeps the invariants.** It has a state. Its start, its accepting
states and the targets of its edges exist, its labels are known in its alphabet, and no state has an
edge twice. Its alphabet is strictly increasing by code point and lacks `∅`. -/
theorem invariant_of_constructed (h : m.Constructed) :
    0 < m.numStates ∧ m.WellFormed ∧ m.alphabet.symbols.Pairwise (· < ·) ∧
      Spelling.emptySetSign ∉ m.alphabet.symbols :=
  ⟨Nat.zero_lt_of_lt h.wellFormed.start_lt, h.wellFormed, m.alphabet.increasing,
    m.alphabet.emptySet_not_mem⟩

/-- The case of `(ε|b)*` twice in a row, where the operands of the union have different alphabets. -/
theorem invariant_of_constructed_power :
    let m := ((emptyWord (.ofChars ['a'])).union (singleEdge (.ofChars ['b']) 0)).star.power 2
    m.Constructed ∧ 0 < m.numStates ∧ m.WellFormed ∧ m.alphabet.symbols.Pairwise (· < ·) ∧
      Spelling.emptySetSign ∉ m.alphabet.symbols := by
  have hletter : literal (.ofChars ['b']) 'b' = .ok (singleEdge (.ofChars ['b']) 0) := by rfl
  have hbuilt := (((Constructed.emptyWord (.ofChars ['a'])).union (.literal hletter)).star).power 2
  exact ⟨hbuilt, invariant_of_constructed hbuilt⟩

end Automaton

end RegularLanguages
