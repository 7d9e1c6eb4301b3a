import RegularLanguages.Proofs.Automaton.Power
import RegularLanguages.Proofs.Automaton.Lift
import RegularLanguages.Proofs.Grammar.Derivation

/-!
# Operators over different alphabets

Over a larger alphabet an automaton accepts the same words, because each edge reads the same
character under another number. Operands over different alphabets are brought to the union of the
two, and there the operators are those over one alphabet. So the language of a result follows from
the languages of the operands, whatever their alphabets are and however their states are joined.
-/

namespace RegularLanguages

namespace Automaton

open Computability

variable {m n a b : Automaton} {alphabet : Alphabet} {L M : Language Char}

/-! ## Larger alphabets -/

theorem SameLabel.symm {A S : Alphabet} {l l' : Label} (h : SameLabel A S l l') :
    SameLabel S A l' l := by
  cases h with
  | epsilon => exact .epsilon
  | symbol hi hj => exact .symbol hj hi

/-- A path can be walked in any automaton that has, for each edge, one that reads the same. -/
theorem Path.transport {A S : Alphabet}
    (hedges : ∀ q, ∀ e ∈ m.edgesFrom q, ∃ f ∈ n.edgesFrom q,
      SameLabel A S e.label f.label ∧ f.target = e.target)
    {q s : Nat} {w : List Char} (h : m.Path A.symbol? q w s) : n.Path S.symbol? q w s := by
  induction h with
  | refl q => exact .refl q
  | epsilon hedge _ ih =>
    obtain ⟨⟨l, t⟩, hf, hlabel, rfl⟩ := hedges _ _ hedge
    cases hlabel
    exact .epsilon hf ih
  | symbol hedge hspell _ ih =>
    obtain ⟨⟨l, t⟩, hf, hlabel, rfl⟩ := hedges _ _ hedge
    cases hlabel with
    | symbol hi hj => exact .symbol hf (hj.trans (hi.symm.trans hspell)) ih

theorem path_relabel_iff (hm : m.WellFormed)
    (hsub : ∀ c ∈ m.alphabet.symbols, c ∈ alphabet.symbols) {q s : Nat} {w : List Char} :
    (m.relabel alphabet).Path alphabet.symbol? q w s ↔ m.Path m.alphabet.symbol? q w s := by
  have hedges := hm.forall₂_edgesFrom_relabel hsub
  constructor
  · refine Path.transport fun q f hf => ?_
    obtain ⟨e, he, hlabel, htarget⟩ := exists_of_forall₂_of_mem (hedges q).flip hf
    exact ⟨e, he, hlabel.symm, htarget.symm⟩
  · exact Path.transport fun q e he => exists_of_forall₂_of_mem (hedges q) he

/-- **An automaton has the same language over a larger alphabet.** -/
theorem language_relabel (hm : m.WellFormed)
    (hsub : ∀ c ∈ m.alphabet.symbols, c ∈ alphabet.symbols) :
    (m.relabel alphabet).language alphabet.symbol? = m.language m.alphabet.symbol? := by
  ext w
  simp only [mem_language, accepting_relabel, start_relabel, path_relabel_iff hm hsub]

/-! ## Alignment -/

/-- The words that the automaton accepts. -/
def accepted (m : Automaton) : Language Char := {w | m.accepts (String.ofList w) = true}

theorem WellFormed.accepted_eq (hm : m.WellFormed) :
    m.accepted = m.language m.alphabet.symbol? := by
  ext w
  show m.accepts (String.ofList w) = true ↔ _
  rw [accepts_iff hm, String.toList_ofList]

theorem Recognises.accepted_eq (h : m.Recognises alphabet alphabet.symbol? L) : m.accepted = L := by
  rw [h.wellFormed.accepted_eq, h.alphabet_eq, h.language_eq]

theorem WellFormed.recognises (hm : m.WellFormed) :
    m.Recognises m.alphabet m.alphabet.symbol? m.accepted :=
  ⟨hm, rfl, hm.accepted_eq.symm⟩

theorem WellFormed.recognises_relabel (hm : m.WellFormed)
    (hsub : ∀ c ∈ m.alphabet.symbols, c ∈ alphabet.symbols) :
    (m.relabel alphabet).Recognises alphabet alphabet.symbol? m.accepted :=
  ⟨hm.relabel alphabet, alphabet_relabel m alphabet,
    (language_relabel hm hsub).trans hm.accepted_eq.symm⟩

theorem align_eq (a b : Automaton) :
    align a b = (a.relabel (a.alphabet.union b.alphabet),
      b.relabel (a.alphabet.union b.alphabet)) := by
  unfold align
  split
  · next h =>
    -- the union adds nothing, and over its own alphabet an automaton is left as it is
    rw [← h, Alphabet.union_self, relabel_self, h, relabel_self]
  · rfl

/-- **Aligned operands keep their languages**, over the union of their alphabets. -/
theorem recognises_align (ha : a.WellFormed) (hb : b.WellFormed) :
    (align a b).1.Recognises (a.alphabet.union b.alphabet) (a.alphabet.union b.alphabet).symbol?
        a.accepted ∧
      (align a b).2.Recognises (a.alphabet.union b.alphabet)
        (a.alphabet.union b.alphabet).symbol? b.accepted := by
  rw [align_eq]
  exact ⟨ha.recognises_relabel fun c hc => Alphabet.mem_union.mpr (Or.inl hc),
    hb.recognises_relabel fun c hc => Alphabet.mem_union.mpr (Or.inr hc)⟩

/-! ## Operators -/

namespace WellFormed

theorem recognises_union (ha : a.WellFormed) (hb : b.WellFormed) :
    (a.union b).Recognises (a.alphabet.union b.alphabet) (a.alphabet.union b.alphabet).symbol?
      (a.accepted + b.accepted) := by
  obtain ⟨hl, hr⟩ := recognises_align ha hb
  have hunion := hl.union hr
  rwa [Automaton.union, align_of_alphabet_eq (hl.alphabet_eq.trans hr.alphabet_eq.symm)] at hunion

theorem recognises_concat (ha : a.WellFormed) (hb : b.WellFormed) :
    (a.concat b).Recognises (a.alphabet.union b.alphabet) (a.alphabet.union b.alphabet).symbol?
      (a.accepted * b.accepted) := by
  obtain ⟨hl, hr⟩ := recognises_align ha hb
  exact hl.concatAligned hr

end WellFormed

/-- **Each operator accepts what its name promises**, for operands over any alphabets: the sum and
the product of the languages, all products of words of one language, the products of one word or
more, the language with the empty word, and the products of a fixed number of words. The result is
over the union of the alphabets. -/
theorem accepted_algebra (ha : a.WellFormed) (hb : b.WellFormed) :
    ((a.union b).accepted = a.accepted + b.accepted ∧
        (a.concat b).accepted = a.accepted * b.accepted ∧
        a.star.accepted = a.accepted∗ ∧
        a.plus.accepted = a.accepted * a.accepted∗ ∧
        a.optional.accepted = a.accepted + 1 ∧
        (a.power 0).accepted = {[]} ∧
        ∀ count, (a.power count).accepted = a.accepted ^ count) ∧
      (a.union b).alphabet = a.alphabet.union b.alphabet ∧
      (a.concat b).alphabet = a.alphabet.union b.alphabet ∧
      (∀ c, c ∈ (a.alphabet.union b.alphabet).symbols ↔
        c ∈ a.alphabet.symbols ∨ c ∈ b.alphabet.symbols) ∧
      a.star.alphabet = a.alphabet ∧ a.plus.alphabet = a.alphabet ∧
      a.optional.alphabet = a.alphabet ∧ ∀ count, (a.power count).alphabet = a.alphabet := by
  have hself := ha.recognises
  have hunion := ha.recognises_union hb
  have hconcat := ha.recognises_concat hb
  refine ⟨⟨hunion.accepted_eq, hconcat.accepted_eq, hself.star.accepted_eq,
    hself.plus.accepted_eq, hself.optional.accepted_eq, (hself.power 0).accepted_eq,
    fun count => (hself.power count).accepted_eq⟩, hunion.alphabet_eq, hconcat.alphabet_eq,
    fun c => Alphabet.mem_union, hself.star.alphabet_eq, hself.plus.alphabet_eq,
    hself.optional.alphabet_eq, fun count => (hself.power count).alphabet_eq⟩

/-- The case of a start state that accepts and has a loop, and of operands over `{a}` and `{b}`. -/
theorem accepted_algebra_of_loop :
    let a := ((ofStart (.ofChars ['a'])).addTransition 0 (.symbol 0) 0).addAccepting 0
    let b := singleEdge (.ofChars ['b']) 0
    a.WellFormed ∧ b.WellFormed ∧ (a.union b).accepted = a.accepted + b.accepted ∧
      (a.concat b).accepted = a.accepted * b.accepted ∧ a.star.accepted = a.accepted∗ ∧
      (a.concat b).alphabet = .ofChars ['b', 'a'] := by
  intro a b
  have hletter : (Label.symbol 0).Known (.ofChars ['a']) := by
    show 0 < (Alphabet.ofChars ['a']).size
    decide
  have hloop := (wellFormed_ofStart (.ofChars ['a'])).addTransition 0 Nat.zero_lt_one hletter
  have ha : a.WellFormed := hloop.addAccepting (by decide)
  have hb : b.WellFormed := .singleEdge (by decide)
  obtain ⟨⟨hunion, hconcat, hstar, -⟩, -, halphabet, -⟩ := accepted_algebra ha hb
  exact ⟨ha, hb, hunion, hconcat, hstar, halphabet.trans (by decide)⟩

end Automaton

end RegularLanguages
