import RegularLanguages.Proofs.Automaton.PairLookup
import RegularLanguages.Proofs.Grammar.Lookup

/-!
# Look-ups never fail

The search through an automaton, the comparison of two automata and the chart parser index arrays by
numbers that they find in other data, and they subtract lengths. `closureOf?`, `step?`, `isEmpty?`,
`relabel?`, `accepts?`, `equivalent?` and `parse?` do this with look-ups and differences that can
fail. On whatever the library lets a user construct they have an answer, and it is the one of the
definitions without the question mark, which fall back on a default.
-/

namespace RegularLanguages

open Automaton

/-- **No look-up and no difference fails.** In a constructed automaton, the closure of a state, all
closures, a step of a set of states, the test for emptiness, the change to any other alphabet and
the reading of any word find every state and every symbol that they look up. The comparison of two
constructed automata finds each joint symbol in both tables and each parent of a node. The parser of
a grammar that was built finds a rule for each of its trees, and takes no length from a shorter
one. -/
theorem lookUps_never_fail :
    (∀ m : Automaton, m.Constructed →
      (∀ q < m.numStates, m.closureOf? q = some (m.closureOf q)) ∧
        m.closures? = some (Memo.closuresOf m).toList ∧
        (∀ states, m.Holds states → ∀ id, m.step? states id = some (m.step states id)) ∧
        m.isEmpty? = some m.isEmpty ∧
        (∀ alphabet, m.relabel? alphabet = some (m.relabel alphabet)) ∧
        ∀ word, m.accepts? word = some (m.accepts word)) ∧
      (∀ a b : Automaton, a.Constructed → b.Constructed →
        a.equivalent? b = some (a.equivalent b)) ∧
      ∀ (d : Draft) (g : Grammar), d.build = .ok g →
        ∀ word, g.parse? word = some (g.parse word) := by
  refine ⟨fun m h => ?_, fun a b ha hb => ha.wellFormed.equivalent?_eq hb.wellFormed,
    fun d g h => Draft.parse?_eq h⟩
  have hm := h.wellFormed
  exact ⟨fun _ hq => hm.closureOf?_eq hq, hm.closures?_eq, fun _ hstates => hm.step?_eq hstates,
    hm.isEmpty?_eq, hm.relabel?_eq, hm.accepts?_eq⟩

/-- The case of `a*` and `ε` over another alphabet, and of the grammar of the words over one
letter. -/
theorem lookUps_never_fail_of_letter :
    let a := (singleEdge (.ofChars ['a']) 0).star
    let b := emptyWord (.ofChars ['b'])
    a.Constructed ∧ b.Constructed ∧ 0 < a.numStates ∧ a.Holds (a.closureOf 0) ∧
      a.closureOf? 0 = some (a.closureOf 0) ∧
      a.step? (a.closureOf 0) 0 = some (a.step (a.closureOf 0) 0) ∧
      a.isEmpty? = some a.isEmpty ∧ a.relabel? b.alphabet = some (a.relabel b.alphabet) ∧
      a.accepts? "ab" = some (a.accepts "ab") ∧ a.equivalent? b = some (a.equivalent b) ∧
      ∃ g, (Draft.mk "S" [⟨"S", [], .empty⟩, ⟨"S", [.terminal 'a', .nonterminal "S"], .union⟩]
          []).build = .ok g ∧ g.parse? "aa" = some (g.parse "aa") := by
  intro a b
  have hletter : literal (.ofChars ['a']) 'a' = .ok (singleEdge (.ofChars ['a']) 0) := by rfl
  have ha : a.Constructed := (Constructed.literal hletter).star
  have hb : b.Constructed := .emptyWord (.ofChars ['b'])
  have hstate : 0 < a.numStates := Nat.zero_lt_of_lt ha.wellFormed.start_lt
  have hholds : a.Holds (a.closureOf 0) := holds_closureFrom a [0]
  have hbuild : (Draft.mk "S" [⟨"S", [], .empty⟩,
      ⟨"S", [.terminal 'a', .nonterminal "S"], .union⟩] []).build =
      .ok ⟨"S", [⟨"S", [], .empty⟩, ⟨"S", [.terminal 'a', .nonterminal "S"], .union⟩], ["S"],
        [⟨0, .empty, 0, []⟩, ⟨1, .union, 0, [.terminal 'a', .nonterminal 0]⟩], [0]⟩ := by cbv
  obtain ⟨hautomaton, hpair, hgrammar⟩ := lookUps_never_fail
  obtain ⟨hclosure, -, hstep, hempty, hrelabel, haccepts⟩ := hautomaton a ha
  exact ⟨ha, hb, hstate, hholds, hclosure 0 hstate, hstep _ hholds 0, hempty, hrelabel b.alphabet,
    haccepts "ab", hpair a b ha hb, _, hbuild, hgrammar _ _ hbuild "aa"⟩

end RegularLanguages
