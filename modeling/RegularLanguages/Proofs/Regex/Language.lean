import RegularLanguages.Proofs.Automaton.Power
import RegularLanguages.Proofs.Regex.Count

/-!
# The language of a regex

What a regex means, apart from automata: `Regex.language` is a set of words, built along the syntax
tree. A compiled regex accepts this set (`build_accepts_iff`).

`Built` says from which automata that of a regex is put together. It leaves out the checks of sizes,
so a property of all automata that come out of `build` is proved by induction on it.

The parts of a regex are built over the compiler's alphabet, so no operator has to align its
operands. A character outside the alphabet cannot occur in the regex, since its literal is refused;
and it cannot be read, since it has no number.
-/

namespace RegularLanguages

open Computability

namespace Regex

/-- Every repetition in the regex has a row of decimal digits as its count. -/
def CountsAreDecimal : Regex → Prop
  | union a b | concatenation a b => a.CountsAreDecimal ∧ b.CountsAreDecimal
  | emptyUnion a | option a | star a | plus a | paren a => a.CountsAreDecimal
  | repetition a count => a.CountsAreDecimal ∧ ∃ text, count = digits text ∧ IsDecimal text
  | empty | terminal _ | digits _ => True

/-! ## Words -/

/-- The words that a regex stands for. A count stands for none. -/
def language : Regex → Language Char
  | union a b => a.language + b.language
  | emptyUnion a | option a => a.language + 1
  | empty => 1
  | concatenation a b => a.language * b.language
  | star a => a.language∗
  | plus a => {w | ∃ words : List (List Char), words ≠ [] ∧ w = words.flatten ∧
      ∀ u ∈ words, u ∈ a.language}
  | repetition a (digits text) => a.language ^ decimalValue text
  | repetition _ _ => 0
  | paren a => a.language
  | terminal c => {[c]}
  | digits _ => 0

theorem language_union (a b : Regex) : (union a b).language = a.language + b.language := rfl

theorem language_emptyUnion (a : Regex) : (emptyUnion a).language = a.language + 1 := rfl

theorem language_empty : empty.language = 1 := rfl

theorem language_concatenation (a b : Regex) :
    (concatenation a b).language = a.language * b.language := rfl

theorem language_option (a : Regex) : (option a).language = a.language + 1 := rfl

theorem language_star (a : Regex) : (star a).language = a.language∗ := rfl

theorem language_repetition (a : Regex) (text : String) :
    (repetition a (digits text)).language = a.language ^ decimalValue text := rfl

theorem language_paren (a : Regex) : (paren a).language = a.language := rfl

theorem language_terminal (c : Char) : (terminal c).language = {[c]} := rfl

/-- One word or more: a first word, and then any number of words. -/
theorem language_plus (a : Regex) : (plus a).language = a.language * a.language∗ := by
  ext w
  rw [Language.mem_mul]
  constructor
  · rintro ⟨words, hne, rfl, hwords⟩
    cases words with
    | nil => exact absurd rfl hne
    | cons u rest =>
      have hrest : rest.flatten ∈ a.language∗ :=
        Language.join_mem_kstar fun v hv => hwords v (List.mem_cons_of_mem _ hv)
      exact ⟨u, hwords u List.mem_cons_self, rest.flatten, hrest, rfl⟩
  · rintro ⟨u, hu, v, hv, rfl⟩
    obtain ⟨rest, rfl, hrest⟩ := Language.mem_kstar.mp hv
    exact ⟨u :: rest, List.cons_ne_nil _ _, rfl, List.forall_mem_cons.mpr ⟨hu, hrest⟩⟩

end Regex

namespace Compiler

open Automaton

variable {c : Compiler} {m : Automaton}

theorem eq_of_checkSize_eq_ok {n : Automaton} (h : c.checkSize n = .ok m) : n = m := by
  unfold checkSize at h
  split at h
  · cases h
  · exact Except.ok.inj h

theorem eq_power_of_repeated_eq_ok {n : Nat} {a : Automaton} (h : c.repeated n a = .ok m) :
    a.power n = m := by
  unfold repeated at h
  split at h
  · cases h
  · exact eq_of_checkSize_eq_ok h

theorem eq_of_repetitionCount_eq_ok {text : String} {n : Nat} (htext : Regex.IsDecimal text)
    (h : c.repetitionCount (.digits text) = .ok n) : n = Regex.decimalValue text := by
  simp only [repetitionCount, Regex.countValue?_of_isDecimal htext] at h
  split at h
  · exact (Except.ok.inj h).symm
  · cases h

theorem recognises_literal {alphabet : Alphabet} {x : Char} (h : literal alphabet x = .ok m) :
    m.Recognises alphabet alphabet.symbol? {[x]} := by
  unfold literal at h
  split at h
  · next id hid =>
    unfold ofSymbol at h
    split at h
    · next hlt =>
      obtain rfl := Except.ok.inj h
      exact .singleEdge hlt (Alphabet.symbol?_eq_some_iff.mpr hid)
    · cases h
  · cases h

/-- The automaton is put together from those of the parts of the regex, whatever their sizes are. -/
inductive Built (c : Compiler) : Regex → Automaton → Prop
  | terminal {symbol : Char} {m : Automaton} (h : literal c.alphabet symbol = .ok m) :
      Built c (.terminal symbol) m
  | empty : Built c .empty (emptyWord c.alphabet)
  | emptyUnion {x : Regex} {m : Automaton} (hx : Built c x m) : Built c (.emptyUnion x) m.optional
  | option {x : Regex} {m : Automaton} (hx : Built c x m) : Built c (.option x) m.optional
  | union {a b : Regex} {l r : Automaton} (ha : Built c a l) (hb : Built c b r) :
      Built c (.union a b) (l.union r)
  | concatenation {a b : Regex} {l r : Automaton} (ha : Built c a l) (hb : Built c b r) :
      Built c (.concatenation a b) (l.concat r)
  | star {x : Regex} {m : Automaton} (hx : Built c x m) : Built c (.star x) m.star
  | plus {x : Regex} {m : Automaton} (hx : Built c x m) : Built c (.plus x) m.plus
  | paren {x : Regex} {m : Automaton} (hx : Built c x m) : Built c (.paren x) m
  | repetition {x count : Regex} {n : Nat} {m : Automaton} (hn : c.repetitionCount count = .ok n)
      (hx : Built c x m) : Built c (.repetition x count) (m.power n)

theorem built_of_build {x : Regex} (h : c.build x = .ok m) : c.Built x m := by
  induction x generalizing m with
  | terminal symbol =>
    obtain ⟨n, hn, hsize⟩ := exists_of_bind_eq_ok h
    obtain rfl := eq_of_checkSize_eq_ok hsize
    exact .terminal hn
  | empty =>
    obtain rfl := eq_of_checkSize_eq_ok h
    exact .empty
  | emptyUnion x ih =>
    obtain ⟨n, hn, hsize⟩ := exists_of_bind_eq_ok h
    obtain rfl := eq_of_checkSize_eq_ok hsize
    exact .emptyUnion (ih hn)
  | option x ih =>
    obtain ⟨n, hn, hsize⟩ := exists_of_bind_eq_ok h
    obtain rfl := eq_of_checkSize_eq_ok hsize
    exact .option (ih hn)
  | union a b iha ihb =>
    obtain ⟨l, hl, hrest⟩ := exists_of_bind_eq_ok h
    obtain ⟨r, hr, hsize⟩ := exists_of_bind_eq_ok hrest
    obtain rfl := eq_of_checkSize_eq_ok hsize
    exact .union (iha hl) (ihb hr)
  | concatenation a b iha ihb =>
    obtain ⟨l, hl, hrest⟩ := exists_of_bind_eq_ok h
    obtain ⟨r, hr, hsize⟩ := exists_of_bind_eq_ok hrest
    obtain rfl := eq_of_checkSize_eq_ok hsize
    exact .concatenation (iha hl) (ihb hr)
  | star x ih =>
    obtain ⟨n, hn, hsize⟩ := exists_of_bind_eq_ok h
    obtain rfl := eq_of_checkSize_eq_ok hsize
    exact .star (ih hn)
  | plus x ih =>
    obtain ⟨n, hn, hsize⟩ := exists_of_bind_eq_ok h
    obtain rfl := eq_of_checkSize_eq_ok hsize
    exact .plus (ih hn)
  | paren x ih =>
    obtain ⟨n, hn, hsize⟩ := exists_of_bind_eq_ok h
    obtain rfl := eq_of_checkSize_eq_ok hsize
    exact .paren (ih hn)
  | repetition x count ih _ =>
    obtain ⟨n, hn, hrest⟩ := exists_of_bind_eq_ok h
    obtain ⟨a, ha, hrepeated⟩ := exists_of_bind_eq_ok hrest
    obtain rfl := eq_power_of_repeated_eq_ok hrepeated
    exact .repetition hn (ih ha)
  | digits text => cases h

/-- The automaton of a regex is built over the compiler's alphabet and has the regex's language. -/
theorem Built.recognises {x : Regex} (h : c.Built x m) (hx : x.CountsAreDecimal) :
    m.Recognises c.alphabet c.alphabet.symbol? x.language := by
  induction h with
  | terminal h => exact recognises_literal h
  | empty => exact .emptyWord c.alphabet
  | emptyUnion _ ih | option _ ih => exact (ih hx).optional
  | union _ _ iha ihb => exact (iha hx.1).union (ihb hx.2)
  | concatenation _ _ iha ihb => exact (iha hx.1).concat (ihb hx.2)
  | star _ ih => exact (ih hx).star
  | plus _ ih =>
    rw [Regex.language_plus]
    exact (ih hx).plus
  | paren _ ih => exact ih hx
  | repetition hn _ ih =>
    obtain ⟨hx, text, rfl, htext⟩ := hx
    obtain rfl := eq_of_repetitionCount_eq_ok htext hn
    exact (ih hx).power _

/-- **A compiled regex accepts the words that it stands for**, and no others. The word may have
characters outside the alphabet. -/
theorem build_accepts_iff (c : Compiler) {x : Regex} (hx : x.CountsAreDecimal)
    (h : c.build x = .ok m) (w : String) : m.accepts w = true ↔ w.toList ∈ x.language := by
  have hright := (built_of_build h).recognises hx
  rw [accepts_iff hright.wellFormed, hright.alphabet_eq, hright.language_eq]

/-- The case of `a^02`, read by a compiler over two letters. -/
theorem build_accepts_iff_of_square :
    ∃ m, (Compiler.mk (.ofChars ['a', 'b']) ⟨"S", [], [], [], []⟩ .standard).build
        (.repetition (.terminal 'a') (.digits "02")) = .ok m ∧
      (m.accepts "aa" = true ↔ "aa".toList ∈
        (Regex.repetition (.terminal 'a') (.digits "02")).language) := by
  have hcounts : (Regex.repetition (.terminal 'a') (.digits "02")).CountsAreDecimal :=
    ⟨trivial, "02", rfl, by decide, List.all_eq_true.mp (by decide)⟩
  have hsize : ((singleEdge (.ofChars ['a', 'b']) 0).power 2).numStates = 4 := by
    simp [power, Layout.close, Layout.appendCopies, Layout.append, singleEdge]
  have hbuild : (Compiler.mk (.ofChars ['a', 'b']) ⟨"S", [], [], [], []⟩ .standard).build
      (.repetition (.terminal 'a') (.digits "02")) =
      .ok ((singleEdge (.ofChars ['a', 'b']) 0).power 2) := by
    show Compiler.repeated ⟨.ofChars ['a', 'b'], ⟨"S", [], [], [], []⟩, .standard⟩ 2
      (singleEdge (.ofChars ['a', 'b']) 0) = _
    rw [repeated, if_neg (by decide), checkSize, hsize, if_neg (by decide)]
  exact ⟨_, hbuild, build_accepts_iff _ hcounts hbuild "aa"⟩

end Compiler

end RegularLanguages
