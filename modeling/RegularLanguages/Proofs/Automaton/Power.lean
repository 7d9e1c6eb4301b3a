import RegularLanguages.Proofs.Automaton.Operators

/-!
# Operators over one alphabet

Operands over the same alphabet need no alignment, so the operators of the algebra are the aligned
constructions. `Recognises` collects what the induction over a regex asks of an automaton: that it is
well formed, that it is over the alphabet, and which language it has.

A power is laid out in one pass. Closing the row after each copy would give the chain of binary
concatenations (`Layout.close_append`), and so the language of the power is a product.
-/

namespace RegularLanguages.Automaton

open Computability

variable {α : Type} {l r a : Automaton} {spell : Nat → Option α} {alphabet : Alphabet}
  {L M : Language α}

/-- The automaton is well formed, is over the alphabet and has the language. -/
structure Recognises (m : Automaton) (alphabet : Alphabet) (spell : Nat → Option α)
    (L : Language α) : Prop where
  wellFormed : m.WellFormed
  alphabet_eq : m.alphabet = alphabet
  language_eq : m.language spell = L

/-- It accepts the words of the language. -/
theorem Recognises.accepts_iff {m : Automaton} {L : Language Char}
    (h : m.Recognises alphabet alphabet.symbol? L) (w : String) :
    m.accepts w = true ↔ w.toList ∈ L := by
  rw [Automaton.accepts_iff h.wellFormed, h.alphabet_eq, h.language_eq]

theorem align_of_alphabet_eq (h : l.alphabet = r.alphabet) : align l r = (l, r) := if_pos h

theorem alphabet_unionAligned (l r : Automaton) : (unionAligned l r).alphabet = l.alphabet := by
  simp [unionAligned, addAccepting, addState, embed, ofStart]

theorem alphabet_concatAligned (l r : Automaton) : (concatAligned l r).alphabet = l.alphabet := by
  rw [concatAligned, alphabet_addAllAccepting, alphabet_addEpsilons]
  rfl

theorem alphabet_star (a : Automaton) : a.star.alphabet = a.alphabet := by
  simp [star, addAccepting, embed, ofStart]

namespace Recognises

theorem emptyWord (alphabet : Alphabet) : (Automaton.emptyWord alphabet).Recognises alphabet spell 1 :=
  ⟨.emptyWord alphabet, rfl, language_emptyWord alphabet⟩

theorem singleEdge {id : Nat} {x : α} (hid : id < alphabet.size) (hspell : spell id = some x) :
    (Automaton.singleEdge alphabet id).Recognises alphabet spell {[x]} :=
  ⟨.singleEdge hid, rfl, language_singleEdge hspell⟩

theorem concatAligned (hl : l.Recognises alphabet spell L) (hr : r.Recognises alphabet spell M) :
    (Automaton.concatAligned l r).Recognises alphabet spell (L * M) where
  wellFormed := hl.wellFormed.concatAligned hr.wellFormed (hr.alphabet_eq.trans hl.alphabet_eq.symm)
  alphabet_eq := (alphabet_concatAligned l r).trans hl.alphabet_eq
  language_eq := by
    rw [language_concatAligned hl.wellFormed hr.wellFormed, hl.language_eq, hr.language_eq]

theorem union (hl : l.Recognises alphabet spell L) (hr : r.Recognises alphabet spell M) :
    (l.union r).Recognises alphabet spell (L + M) := by
  have heq : r.alphabet = l.alphabet := hr.alphabet_eq.trans hl.alphabet_eq.symm
  rw [Automaton.union, align_of_alphabet_eq heq.symm]
  refine ⟨hl.wellFormed.unionAligned hr.wellFormed heq, ?_, ?_⟩
  · rw [alphabet_unionAligned, hl.alphabet_eq]
  · rw [language_unionAligned hl.wellFormed hr.wellFormed, hl.language_eq, hr.language_eq]

theorem concat (hl : l.Recognises alphabet spell L) (hr : r.Recognises alphabet spell M) :
    (l.concat r).Recognises alphabet spell (L * M) := by
  rw [Automaton.concat, align_of_alphabet_eq (hl.alphabet_eq.trans hr.alphabet_eq.symm)]
  exact hl.concatAligned hr

theorem star (h : a.Recognises alphabet spell L) : a.star.Recognises alphabet spell L∗ where
  wellFormed := h.wellFormed.star
  alphabet_eq := (alphabet_star a).trans h.alphabet_eq
  language_eq := by rw [language_star h.wellFormed, h.language_eq]

theorem plus (h : a.Recognises alphabet spell L) : a.plus.Recognises alphabet spell (L * L∗) :=
  h.concat h.star

theorem optional (h : a.Recognises alphabet spell L) :
    a.optional.Recognises alphabet spell (L + 1) := by
  have hempty : (Automaton.emptyWord a.alphabet).Recognises alphabet spell 1 := by
    rw [h.alphabet_eq]
    exact emptyWord alphabet
  exact h.union hempty

end Recognises

/-! ## Powers -/

theorem addAllAccepting_eq (m : Automaton) (qs : List Nat) :
    m.addAllAccepting qs = { m with accepting := m.accepting.insertAll qs } := by
  induction qs generalizing m with
  | nil => rfl
  | cons q rest ih =>
    rw [addAllAccepting, List.foldl_cons, ← addAllAccepting, ih]
    rfl

/-- No state of the row accepts yet, and the ends are in increasing order. -/
structure Layout.Open (layout : Layout) : Prop where
  accepting_eq : layout.body.accepting = ∅
  ends_increasing : layout.ends.Pairwise (· < ·)

theorem Layout.Open.first (a : Automaton) :
    Layout.Open ⟨a.clearAccepting, a.accepting.toList⟩ :=
  ⟨rfl, a.accepting.pairwise_toList⟩

theorem Layout.Open.append {layout : Layout} (h : layout.Open) (a : Automaton) :
    (layout.append a).Open where
  accepting_eq := by
    rw [Layout.append, accepting_addEpsilons, accepting_embed]
    exact h.accepting_eq
  ends_increasing := by
    rw [Layout.append, List.pairwise_map]
    exact a.accepting.pairwise_toList.imp fun hlt => Nat.add_lt_add_right hlt _

theorem Layout.Open.clearAccepting_close {layout : Layout} (h : layout.Open) :
    layout.close.clearAccepting = layout.body := by
  rw [Layout.close, addAllAccepting_eq, clearAccepting, ← h.accepting_eq]

theorem Layout.Open.toList_accepting_close {layout : Layout} (h : layout.Open) :
    layout.close.accepting.toList = layout.ends := by
  rw [Layout.close, accepting_addAllAccepting, h.accepting_eq]
  exact StateSet.toList_ofList h.ends_increasing

/-- **One more copy is one more concatenation.** -/
theorem Layout.Open.close_append {layout : Layout} (h : layout.Open) (a : Automaton) :
    (layout.append a).close = concatAligned layout.close a := by
  have hstates : layout.close.numStates = layout.body.numStates := by
    rw [Layout.close, numStates_addAllAccepting]
  rw [concatAligned, h.clearAccepting_close, h.toList_accepting_close, hstates]
  rfl

theorem Layout.Open.recognises_appendCopies {layout : Layout} (h : layout.Open)
    (ha : a.Recognises alphabet spell L) (hclose : layout.close.Recognises alphabet spell M)
    (n : Nat) : (layout.appendCopies a n).close.Recognises alphabet spell (M * L ^ n) := by
  induction n generalizing layout M with
  | zero =>
    rw [pow_zero, mul_one]
    exact hclose
  | succ n ih =>
    -- each copy multiplies from the right, and `pow_succ'` takes its factor from the left
    have hnext : (layout.append a).close.Recognises alphabet spell (M * L) := by
      rw [h.close_append a]
      exact hclose.concatAligned ha
    rw [pow_succ', ← mul_assoc]
    exact ih (h.append a) hnext

/-- The first copy of the row accepts, once it is closed, what the operand accepts. -/
theorem Recognises.close_first (ha : a.Recognises alphabet spell L) :
    (Layout.close ⟨a.clearAccepting, a.accepting.toList⟩).Recognises alphabet spell L := by
  have hwf := ha.wellFormed
  have haccepting : ∀ q, (Layout.close ⟨a.clearAccepting, a.accepting.toList⟩).accepting.contains q =
      a.accepting.contains q := by
    intro q
    simp [Layout.close, clearAccepting]
  have hedges : ∀ q, (Layout.close ⟨a.clearAccepting, a.accepting.toList⟩).edgesFrom q =
      a.edgesFrom q := by
    intro q
    rw [Layout.close, edgesFrom_addAllAccepting]
    rfl
  have hstart : (Layout.close ⟨a.clearAccepting, a.accepting.toList⟩).start = a.start := by
    rw [Layout.close, start_addAllAccepting]
    rfl
  refine ⟨?_, ?_, ?_⟩
  · exact hwf.clearAccepting.addAllAccepting fun q hq => hwf.accepting_lt q (StateSet.mem_toList.mp hq)
  · rw [Layout.close, alphabet_addAllAccepting]
    exact ha.alphabet_eq
  · rw [← ha.language_eq]
    ext w
    simp only [mem_language, haccepting, hstart]
    constructor
    · rintro ⟨q, hq, hpath⟩
      exact ⟨q, hq, hpath.congr hedges⟩
    · rintro ⟨q, hq, hpath⟩
      exact ⟨q, hq, hpath.congr fun p => (hedges p).symm⟩

/-- **A power accepts the power of the language.** -/
theorem Recognises.power (ha : a.Recognises alphabet spell L) (n : Nat) :
    (a.power n).Recognises alphabet spell (L ^ n) := by
  cases n with
  | zero =>
    rw [pow_zero, Automaton.power, ha.alphabet_eq]
    exact Recognises.emptyWord alphabet
  | succ n =>
    rw [pow_succ']
    exact (Layout.Open.first a).recognises_appendCopies ha ha.close_first n

end RegularLanguages.Automaton
