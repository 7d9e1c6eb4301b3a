import RegularLanguages.Proofs.Regex.Ambiguity
import RegularLanguages.Proofs.Regex.States

/-!
# When a regex can be built

A regex as it comes may have symbols that the alphabet lacks, something else than a count behind `^`,
or a count where a regex is expected. Building finds each of these faults, so a regex that is built is
buildable (`Built.buildable`); and a buildable regex is built within the limits. Together this is an
exact criterion for all regexes.

The limits only decide whether there is an automaton, not which one. Building with higher limits goes
the same way as far as it went before (`keeps_build`).
-/

namespace RegularLanguages

/-! ## Regexes whose digits are numbers -/

namespace Regex

/-- Every row of digits in the regex is a decimal number, wherever it stands. -/
def DigitsAreDecimal : Regex → Prop
  | union a b | concatenation a b | repetition a b => a.DigitsAreDecimal ∧ b.DigitsAreDecimal
  | emptyUnion a | option a | star a | plus a | paren a => a.DigitsAreDecimal
  | empty | terminal _ => True
  | digits text => IsDecimal text

end Regex

/-! ## More than before -/

section

variable {α β : Type} {r s : Except Error α}

/-- What the first computation gives, the second one gives, too. -/
def Keeps (r s : Except Error α) : Prop := ∀ a, r = .ok a → s = .ok a

theorem keeps_refl (r : Except Error α) : Keeps r r := fun _ h => h

theorem keeps_error (e : Error) (s : Except Error α) : Keeps (.error e) s := by
  intro a h
  cases h

theorem Keeps.bind {f g : α → Except Error β} (h : Keeps r s) (hf : ∀ a, Keeps (f a) (g a)) :
    Keeps (r.bind f) (s.bind g) := by
  intro b hb
  obtain ⟨a, ha, hfa⟩ := exists_of_bind_eq_ok hb
  rw [h a ha]
  exact hf a b hfa

/-- What passes a check passes one with a higher limit, too. -/
theorem Keeps.guard {n limit limit' : Nat} {e e' : Error} (hlimit : limit ≤ limit') (h : Keeps r s) :
    Keeps (if limit < n then .error e else r) (if limit' < n then .error e' else s) := by
  split
  · exact keeps_error _ _
  · next hle =>
    rw [if_neg (by omega)]
    exact h

end

namespace Compiler

open Automaton Regex

variable {c : Compiler} {m : Automaton} {x : Regex}

/-! ## Faults -/

theorem mem_of_literal_eq_ok {S : Alphabet} {symbol : Char} (h : literal S symbol = .ok m) :
    symbol ∈ S.symbols := by
  unfold literal at h
  split at h
  · next id hid => exact List.mem_of_getElem? (Alphabet.symbol?_eq_some_iff.mpr hid)
  · cases h

theorem exists_of_repetitionCount_eq_ok {count : Regex} {n : Nat}
    (h : c.repetitionCount count = .ok n) : ∃ text, count = digits text := by
  cases count with
  | digits text => exact ⟨text, rfl⟩
  | _ => cases h

/-- What is built has no fault. -/
theorem Built.buildable (h : c.Built x m) (hx : x.DigitsAreDecimal) : x.Buildable c.alphabet := by
  induction h with
  | terminal h => exact mem_of_literal_eq_ok h
  | empty => exact trivial
  | emptyUnion _ ih | option _ ih | star _ ih | plus _ ih | paren _ ih => exact ih hx
  | union _ _ iha ihb | concatenation _ _ iha ihb => exact ⟨iha hx.1, ihb hx.2⟩
  | repetition hn _ ih =>
    obtain ⟨text, rfl⟩ := exists_of_repetitionCount_eq_ok hn
    exact ⟨ih hx.1, text, rfl, hx.2⟩

theorem buildable_of_build (hx : x.DigitsAreDecimal) (h : c.build x = .ok m) :
    x.Buildable c.alphabet :=
  (built_of_build h).buildable hx

theorem numStates_of_build (hx : x.Buildable c.alphabet) (h : c.build x = .ok m) :
    m.numStates = x.states := by
  have hanswers := answers_build hx
  rw [h] at hanswers
  cases hanswers with
  | ok hstates _ => exact hstates

/-! ## Higher limits -/

variable {limits : Limits}

theorem keeps_checkSize (hstates : c.limits.maxStates ≤ limits.maxStates) (m : Automaton) :
    Keeps (c.checkSize m) (checkSize { c with limits := limits } m) :=
  (keeps_refl _).guard (UInt32.le_iff_toNat_le.mp hstates)

theorem keeps_repetitionCount (hvalue : c.limits.maxRepetition ≤ limits.maxRepetition)
    (count : Regex) :
    Keeps (c.repetitionCount count) (repetitionCount { c with limits := limits } count) := by
  cases count with
  | digits text =>
    simp only [repetitionCount]
    split
    · split
      · next hle =>
        rw [if_pos (hle.trans (UInt32.le_iff_toNat_le.mp hvalue))]
        exact keeps_refl _
      · exact keeps_error _ _
    · exact keeps_error _ _
  | _ => exact keeps_error _ _

theorem keeps_repeated (hstates : c.limits.maxStates ≤ limits.maxStates) (n : Nat) (m : Automaton) :
    Keeps (c.repeated n m) (repeated { c with limits := limits } n m) :=
  (keeps_checkSize hstates _).guard (UInt32.le_iff_toNat_le.mp hstates)

/-- **Higher limits change no automaton.** -/
theorem keeps_build (hvalue : c.limits.maxRepetition ≤ limits.maxRepetition)
    (hstates : c.limits.maxStates ≤ limits.maxStates) (x : Regex) :
    Keeps (c.build x) (build { c with limits := limits } x) := by
  induction x with
  | terminal symbol => exact (keeps_refl _).bind (keeps_checkSize hstates)
  | empty => exact keeps_checkSize hstates _
  | emptyUnion x ih | option x ih | star x ih | plus x ih | paren x ih =>
    exact ih.bind fun m => keeps_checkSize hstates _
  | union a b iha ihb | concatenation a b iha ihb =>
    exact iha.bind fun l => ihb.bind fun r => keeps_checkSize hstates _
  | repetition x count ih _ =>
    exact (keeps_repetitionCount hvalue count).bind fun n => ih.bind fun m =>
      keeps_repeated hstates n m
  | digits text => exact keeps_error _ _

/-! ## The criterion -/

/-- **When a regex is built.** Its symbols must be in the alphabet, a count must stand behind each `^`
and nowhere else, no count may exceed its limit, and no part but a count may need more states than the
limit; and this suffices. If it is not built, the fault lies in what a person wrote. If it is, the
automaton has the number of states that is read off the regex, and is the same under higher limits. -/
theorem build_succeeds_iff (c : Compiler) (hx : x.DigitsAreDecimal) :
    ((∃ m, c.build x = .ok m) ↔ x.Buildable c.alphabet ∧ x.Within c.limits) ∧
      (∀ e, c.build x = .error e → e.family = .invalidFormat) ∧
      ∀ m, c.build x = .ok m → m.numStates = x.states ∧
        ∀ limits : Limits, c.limits.maxRepetition ≤ limits.maxRepetition →
          c.limits.maxStates ≤ limits.maxStates →
          build { c with limits := limits } x = .ok m := by
  refine ⟨⟨?_, ?_⟩, okOrInvalid_build c x, fun m hm => ⟨?_, ?_⟩⟩
  · rintro ⟨m, hm⟩
    have hbuildable := buildable_of_build hx hm
    exact ⟨hbuildable, (build_eq_ok_iff hbuildable).mp ⟨m, hm⟩⟩
  · rintro ⟨hbuildable, hwithin⟩
    exact (build_eq_ok_iff hbuildable).mpr hwithin
  · exact numStates_of_build (buildable_of_build hx hm) hm
  · exact fun limits hvalue hstates => keeps_build hvalue hstates x m hm

/-- The case of `(a|b)^00`: the result has one state, but the six states of the operand count. -/
theorem build_succeeds_iff_of_no_copies :
    let x := Regex.repetition (.union (.terminal 'a') (.terminal 'b')) (.digits "00")
    let c := Compiler.mk (.ofChars ['a', 'b']) ⟨"S", [], [], [], []⟩ ⟨0, 6⟩
    x.DigitsAreDecimal ∧ (∃ m, c.build x = .ok m ∧ m.numStates = 1) ∧
      ∀ m, build { c with limits := ⟨0, 5⟩ } x ≠ .ok m := by
  intro x c
  have hzero : IsDecimal "00" := ⟨by decide, List.all_eq_true.mp (by decide)⟩
  have hletters : 'a' ∈ (Alphabet.ofChars ['a', 'b']).symbols ∧
      'b' ∈ (Alphabet.ofChars ['a', 'b']).symbols := by decide
  have hdigits : x.DigitsAreDecimal := ⟨⟨trivial, trivial⟩, hzero⟩
  have hbuildable : x.Buildable c.alphabet := ⟨hletters, "00", rfl, hzero⟩
  have hwithin : x.Within c.limits := ⟨by decide, by decide⟩
  obtain ⟨hiff, -, hsize⟩ := build_succeeds_iff c hdigits
  obtain ⟨m, hm⟩ := hiff.mpr ⟨hbuildable, hwithin⟩
  refine ⟨hdigits, ⟨m, hm, (hsize m hm).1⟩, fun n hn => ?_⟩
  obtain ⟨hlower, -⟩ := build_succeeds_iff { c with limits := ⟨0, 5⟩ } hdigits
  have hoperand := (hlower.mp ⟨n, hn⟩).2.states_le (.union (.terminal 'a') (.terminal 'b')) (by decide)
  exact absurd hoperand (by decide)

end Compiler

end RegularLanguages
