import RegularLanguages.Proofs.Automaton.Construction
import RegularLanguages.Proofs.Automaton.Words
import RegularLanguages.Proofs.Regex.Criterion
import RegularLanguages.Regex.Words

/-!
# When machine words suffice

In machine words the same automata are made as in exact numbers, as long as each of them can be counted
in 32 bits (`refines_buildIn`). Except before a repetition, the size of an automaton is checked when it is
there already. Its operands have passed such a check, so it can be about twice as large as the limit, but
no larger. The largest case is a union, with two states more than its operands. So 32 bits suffice for
every regex if the limit is at most `2 ^ 31 - 2` (`counted_buildIn`), and every text is then compiled as
in exact numbers (`outcome_compileIn_words`).

With any higher limit they do not. Operands of `2 ^ 31 - 1` states pass, their union has `2 ^ 32` states,
and its count starts again from zero. Then the check at the end sees a small number.
-/

namespace RegularLanguages

open Automaton

/-! ## Logs -/

namespace Log

variable {log log' : Log} {f g : Automaton → Log} {m n : Automaton}

theorem outcome_bind (log : Log) (f : Automaton → Log) :
    (log.bind f).outcome = log.outcome.bind fun m => (f m).outcome := by
  obtain ⟨made, outcome⟩ := log
  cases outcome <;> rfl

theorem outcome_make_bind (m : Automaton) (f : Automaton → Log) :
    ((make m).bind f).outcome = (f m).outcome := rfl

theorem mem_made_bind :
    n ∈ (log.bind f).made ↔ n ∈ log.made ∨ ∃ m, log.outcome = .ok m ∧ n ∈ (f m).made := by
  obtain ⟨made, outcome⟩ := log
  cases outcome with
  | error e => simp [bind]
  | ok m => simp [bind]

theorem outcome_ofExcept (r : Except Error Automaton) : (ofExcept r).outcome = r := by
  cases r <;> rfl

/-- The states of all automata that are made can be counted in 32 bits. -/
def Counted (log : Log) : Prop := ∀ m ∈ log.made, m.numStates < 2 ^ 32

theorem counted_fail (e : Error) : (fail e).Counted := by
  intro m hm
  cases hm

theorem counted_make : (make m).Counted ↔ m.numStates < 2 ^ 32 := by
  simp [Counted, make]

theorem counted_bind :
    (log.bind f).Counted ↔ log.Counted ∧ ∀ m, log.outcome = .ok m → (f m).Counted := by
  simp only [Counted, mem_made_bind]
  constructor
  · intro h
    exact ⟨fun n hn => h n (Or.inl hn), fun m hm n hn => h n (Or.inr ⟨m, hm, hn⟩)⟩
  · rintro ⟨hlog, hf⟩ n (hn | ⟨m, hm, hn⟩)
    · exact hlog n hn
    · exact hf m hm n hn

theorem counted_make_bind :
    ((make m).bind f).Counted ↔ m.numStates < 2 ^ 32 ∧ (f m).Counted := by
  rw [counted_bind, counted_make]
  exact and_congr_right fun _ => ⟨fun h => h m rfl, fun h n hn => Except.ok.inj hn ▸ h⟩

/-- If everything that is made can be counted, the second log is the same. -/
def Refines (log log' : Log) : Prop := log.Counted → log = log'

theorem refines_refl (log : Log) : log.Refines log := fun _ => rfl

theorem Refines.bind (h : log.Refines log')
    (hf : ∀ m, log'.outcome = .ok m → (f m).Refines (g m)) : (log.bind f).Refines (log'.bind g) := by
  intro hcounted
  obtain ⟨hlog, hrest⟩ := counted_bind.mp hcounted
  obtain rfl := h hlog
  cases hout : log.outcome with
  | error e => simp only [Log.bind, hout]
  | ok m => simp only [Log.bind, hout, hf m hout (hrest m hout)]

/-- An automaton that is made on the way may take the place of one that it equals if it can be
counted. -/
theorem Refines.make (hmn : m.numStates < 2 ^ 32 → m = n) (hf : (f n).Refines (g n)) :
    ((make m).bind f).Refines ((make n).bind g) := by
  intro hcounted
  obtain ⟨hm, hrest⟩ := counted_make_bind.mp hcounted
  obtain rfl := hmn hm
  simp only [Log.bind, Log.make, hf hrest]

end Log

namespace Compiler

open Log Regex

variable {c : Compiler} {x : Regex} {m n : Automaton} {count : Nat}

/-! ## Exact numbers -/

theorem outcome_checked_exact (c : Compiler) (m : Automaton) :
    (c.checked .exact m).outcome = c.checkSize m := rfl

theorem outcome_copied_exact (c : Compiler) (count : Nat) (m : Automaton) :
    (c.copied .exact count m).outcome = c.repeated count m := by
  rw [copied, repeated, apply_ite Log.outcome, outcome_checked_exact]
  rfl

/-- **In exact numbers the outcome is that of `build`.** -/
theorem outcome_buildIn_exact (c : Compiler) (x : Regex) : (c.buildIn .exact x).outcome = c.build x := by
  induction x with
  | terminal symbol =>
    rw [buildIn, outcome_bind, outcome_ofExcept]
    rfl
  | empty => rfl
  | emptyUnion x ih | option x ih | plus x ih =>
    simp only [buildIn, build, ↓outcome_make_bind, outcome_bind, ih, outcome_checked_exact]
    rfl
  | star x ih | paren x ih =>
    rw [buildIn, build, outcome_bind, ih]
    rfl
  | union a b iha ihb | concatenation a b iha ihb =>
    simp only [buildIn, build, outcome_bind, iha, ihb, outcome_checked_exact]
    rfl
  | repetition x count ih _ =>
    rw [buildIn, build]
    cases c.repetitionCount count with
    | error e => rfl
    | ok n =>
      simp only [outcome_bind, ih, outcome_copied_exact]
      rfl
  | digits text => rfl

theorem wellFormed_of_outcome (h : (c.buildIn .exact x).outcome = .ok m) : m.WellFormed :=
  wellFormed_build ((outcome_buildIn_exact c x).symm.trans h)

theorem numStates_le_of_checkSize (h : c.checkSize n = .ok m) :
    m.numStates ≤ c.limits.maxStates.toNat := by
  unfold checkSize at h
  split at h
  · cases h
  · next hle =>
    obtain rfl := Except.ok.inj h
    exact Nat.not_lt.mp hle

/-- What is built is not above the limit. -/
theorem numStates_le_of_build (h : c.build x = .ok m) : m.numStates ≤ c.limits.maxStates.toNat := by
  cases x with
  | empty => exact numStates_le_of_checkSize h
  | terminal symbol =>
    obtain ⟨a, -, hsize⟩ := exists_of_bind_eq_ok h
    exact numStates_le_of_checkSize hsize
  | emptyUnion x | option x | star x | plus x | paren x =>
    obtain ⟨a, -, hsize⟩ := exists_of_bind_eq_ok h
    exact numStates_le_of_checkSize hsize
  | union a b | concatenation a b =>
    obtain ⟨l, -, hrest⟩ := exists_of_bind_eq_ok h
    obtain ⟨r, -, hsize⟩ := exists_of_bind_eq_ok hrest
    exact numStates_le_of_checkSize hsize
  | repetition x count =>
    obtain ⟨n, -, hrest⟩ := exists_of_bind_eq_ok h
    obtain ⟨a, -, hrepeated⟩ := exists_of_bind_eq_ok hrest
    unfold repeated at hrepeated
    split at hrepeated
    · cases hrepeated
    · exact numStates_le_of_checkSize hrepeated
  | digits text => cases h

theorem numStates_le_of_outcome (h : (c.buildIn .exact x).outcome = .ok m) :
    m.numStates ≤ c.limits.maxStates.toNat :=
  numStates_le_of_build ((outcome_buildIn_exact c x).symm.trans h)

/-! ## Checks in machine words -/

theorem counted_checked {w : Arithmetic} : (c.checked w m).Counted ↔ m.numStates < 2 ^ 32 := by
  simp [Counted, checked]

/-- The number that is checked is the number of states. -/
theorem refines_checked (hmn : m.numStates < 2 ^ 32 → m = n) :
    (c.checked .words m).Refines (c.checked .exact n) := by
  intro hcounted
  rw [counted_checked] at hcounted
  obtain rfl := hmn hcounted
  have hnum : Arithmetic.words.numStates m = Arithmetic.exact.numStates m :=
    toNat_numStates32 hcounted
  rw [checked, checked, hnum]

/-- The product of two numbers of 32 bits has room in 64 bits. -/
theorem toNat_statesOfCopies (m : Automaton) (count : UInt32) :
    (m.statesOfCopies count).toNat = m.numStates32.toNat * count.toNat := by
  rw [statesOfCopies, UInt64.toNat_mul, UInt32.toNat_toUInt64, UInt32.toNat_toUInt64]
  refine Nat.mod_eq_of_lt ?_
  calc m.numStates32.toNat * count.toNat
      ≤ (2 ^ 32 - 1) * (2 ^ 32 - 1) :=
        Nat.mul_le_mul (Nat.le_pred_of_lt m.numStates32.toNat_lt) (Nat.le_pred_of_lt count.toNat_lt)
    _ < 2 ^ 64 := by decide

/-- The product that is checked before a repetition is the true one. -/
theorem statesOfCopies_words (hm : m.numStates < 2 ^ 32) (hcount : count < 2 ^ 32) :
    Arithmetic.words.statesOfCopies m count = m.numStates * count := by
  show (m.statesOfCopies (UInt32.ofNat count)).toNat = m.numStates * count
  rw [toNat_statesOfCopies, toNat_numStates32 hm, UInt32.toNat_ofNat_of_lt' hcount]

theorem refines_copied (hwf : m.WellFormed) (hm : m.numStates < 2 ^ 32) (hcount : count < 2 ^ 32) :
    (c.copied .words count m).Refines (c.copied .exact count m) := by
  have hcopies : Arithmetic.exact.statesOfCopies m count = m.numStates * count := rfl
  rw [copied, copied, statesOfCopies_words hm hcount, hcopies]
  split
  · exact refines_refl _
  · exact refines_checked (power32_eq hwf)

theorem lt_of_repetitionCount {y : Regex} (h : c.repetitionCount y = .ok count) : count < 2 ^ 32 := by
  obtain ⟨text, rfl⟩ := exists_of_repetitionCount_eq_ok h
  simp only [repetitionCount] at h
  split at h
  · split at h
    · next hle =>
      obtain rfl := Except.ok.inj h
      exact Nat.lt_of_le_of_lt hle c.limits.maxRepetition.toNat_lt
    · cases h
  · cases h

/-- **As long as everything that is made can be counted, machine words are exact.** -/
theorem refines_buildIn (c : Compiler) (x : Regex) :
    (c.buildIn .words x).Refines (c.buildIn .exact x) := by
  induction x with
  | terminal symbol => exact (refines_refl _).bind fun m _ => refines_checked fun _ => rfl
  | empty => exact refines_checked fun _ => rfl
  | emptyUnion x ih | option x ih =>
    refine ih.bind fun m hm => .make (fun _ => rfl) (refines_checked ?_)
    exact union32_eq (wellFormed_of_outcome hm) (.emptyWord m.alphabet)
  | union a b iha ihb =>
    refine iha.bind fun l hl => ihb.bind fun r hr => refines_checked ?_
    exact union32_eq (wellFormed_of_outcome hl) (wellFormed_of_outcome hr)
  | concatenation a b iha ihb =>
    refine iha.bind fun l hl => ihb.bind fun r hr => refines_checked ?_
    exact concat32_eq (wellFormed_of_outcome hl) (wellFormed_of_outcome hr)
  | star x ih => exact ih.bind fun m hm => refines_checked (star32_eq (wellFormed_of_outcome hm))
  | plus x ih =>
    refine ih.bind fun m hm => ?_
    have hwf := wellFormed_of_outcome hm
    exact .make (star32_eq hwf) (refines_checked (concat32_eq hwf hwf.star))
  | paren x ih => exact ih.bind fun m _ => refines_checked fun _ => rfl
  | repetition x count ih _ =>
    rw [buildIn, buildIn]
    cases hcount : c.repetitionCount count with
    | error e => exact refines_refl _
    | ok n =>
      refine ih.bind fun m hm => ?_
      have hm_lt := Nat.lt_of_le_of_lt (numStates_le_of_outcome hm) c.limits.maxStates.toNat_lt
      exact refines_copied (wellFormed_of_outcome hm) hm_lt (lt_of_repetitionCount hcount)
  | digits text => exact refines_refl _

theorem outcome_buildIn_of_counted (h : (c.buildIn .words x).Counted) :
    (c.buildIn .words x).outcome = c.build x := by
  rw [refines_buildIn c x h, outcome_buildIn_exact]

/-! ## Limits that suffice -/

theorem numStates_literal {S : Alphabet} {symbol : Char} (h : literal S symbol = .ok m) :
    m.numStates = 2 := by
  unfold literal ofSymbol at h
  split at h
  · split at h
    · obtain rfl := Except.ok.inj h
      rfl
    · cases h
  · cases h

theorem counted_ofExcept_literal (S : Alphabet) (symbol : Char) :
    (ofExcept (literal S symbol)).Counted := by
  cases h : literal S symbol with
  | error e => exact counted_fail e
  | ok m => exact counted_make.mpr (by rw [numStates_literal h]; decide)

/-- What comes out of a part is not above the limit. -/
theorem counted_buildIn_bind {f : Automaton → Log} (h : (c.buildIn .words x).Counted)
    (hf : ∀ m, m.numStates ≤ c.limits.maxStates.toNat → (f m).Counted) :
    ((c.buildIn .words x).bind f).Counted := by
  refine counted_bind.mpr ⟨h, fun m hm => hf m ?_⟩
  rw [refines_buildIn c x h] at hm
  exact numStates_le_of_outcome hm

theorem counted_copied (hm : m.numStates ≤ c.limits.maxStates.toNat) (hcount : count < 2 ^ 32) :
    (c.copied .words count m).Counted := by
  have hlimit := c.limits.maxStates.toNat_lt
  rw [copied, statesOfCopies_words (Nat.lt_of_le_of_lt hm hlimit) hcount]
  split
  · exact counted_fail _
  · next hle =>
    show (c.checked .words (m.power32 count)).Counted
    rw [counted_checked, numStates_power32]
    split <;> omega

theorem counted_empty (c : Compiler) : (c.buildIn .words .empty).Counted :=
  counted_checked.mpr (by rw [numStates_emptyWord]; decide)

/-- A repetition is checked before its copies are made, so it can be counted under any limit. -/
theorem counted_repetition {count : Regex} (h : (c.buildIn .words x).Counted) :
    (c.buildIn .words (.repetition x count)).Counted := by
  rw [buildIn]
  cases hcount : c.repetitionCount count with
  | error e => exact counted_fail e
  | ok n =>
    exact counted_buildIn_bind h fun m hm => counted_copied hm (lt_of_repetitionCount hcount)

/-- **With a limit of at most `2 ^ 31 - 2` states, everything that is made can be counted.** -/
theorem counted_buildIn (hlimit : c.limits.maxStates.toNat ≤ 2 ^ 31 - 2) (x : Regex) :
    (c.buildIn .words x).Counted := by
  induction x with
  | terminal symbol =>
    refine counted_bind.mpr ⟨counted_ofExcept_literal _ _, fun m hm => counted_checked.mpr ?_⟩
    rw [outcome_ofExcept] at hm
    rw [numStates_literal hm]
    decide
  | empty => exact counted_empty c
  | emptyUnion x ih | option x ih =>
    refine counted_buildIn_bind ih fun m hm => counted_make_bind.mpr ⟨?_, counted_checked.mpr ?_⟩
    · rw [numStates_emptyWord]
      decide
    · show (m.union32 (emptyWord m.alphabet)).numStates < 2 ^ 32
      rw [numStates_union32, numStates_emptyWord]
      omega
  | union a b iha ihb =>
    refine counted_buildIn_bind iha fun l hl => counted_buildIn_bind ihb fun r hr => ?_
    show (c.checked .words (l.union32 r)).Counted
    rw [counted_checked, numStates_union32]
    omega
  | concatenation a b iha ihb =>
    refine counted_buildIn_bind iha fun l hl => counted_buildIn_bind ihb fun r hr => ?_
    show (c.checked .words (l.concat32 r)).Counted
    rw [counted_checked, numStates_concat32]
    omega
  | star x ih =>
    refine counted_buildIn_bind ih fun m hm => ?_
    show (c.checked .words m.star32).Counted
    rw [counted_checked, numStates_star32]
    omega
  | plus x ih =>
    refine counted_buildIn_bind ih fun m hm => counted_make_bind.mpr ⟨?_, counted_checked.mpr ?_⟩
    · show m.star32.numStates < 2 ^ 32
      rw [numStates_star32]
      omega
    · show (m.concat32 m.star32).numStates < 2 ^ 32
      rw [numStates_concat32, numStates_star32]
      omega
  | paren x ih =>
    refine counted_buildIn_bind ih fun m hm => ?_
    rw [counted_checked]
    omega
  | repetition x count ih _ => exact counted_repetition ih
  | digits text => exact counted_fail _

/-- **With such a limit, a text is compiled in machine words as in exact numbers.** What is proved of
`compile` then holds of the program that counts in 32 bits, errors included. -/
theorem outcome_compileIn_words (hlimit : c.limits.maxStates.toNat ≤ 2 ^ 31 - 2) (text : String) :
    (c.compileIn .words text).outcome = c.compile text := by
  rw [compileIn, compile]
  cases c.parse text with
  | error e => rfl
  | ok x => exact outcome_buildIn_of_counted (counted_buildIn hlimit x)

/-- The same for an alphabet that is given or inferred. -/
theorem compileRegexIn_words {limits : Limits} (hlimit : limits.maxStates.toNat ≤ 2 ^ 31 - 2)
    (text : String) (alphabet : Option Alphabet) :
    compileRegexIn .words text alphabet limits = compileRegex text alphabet limits := by
  obtain ⟨g, hg⟩ := exists_grammar (alphabet.getD (.infer text))
  rw [compileRegexIn, compileRegex, ofAlphabet_eq hg limits, Except.bind, Except.bind]
  exact outcome_compileIn_words hlimit text

/-! ## Limits that do not suffice -/

theorem outcome_checked {w : Arithmetic} (h : w.numStates m ≤ c.limits.maxStates.toNat) :
    (c.checked w m).outcome = .ok m := by
  simp only [checked, if_neg (Nat.not_lt.mpr h)]

/-- An automaton passes its check if it really is within the limit. -/
theorem outcome_checked_of_le (h : m.numStates ≤ c.limits.maxStates.toNat) :
    (c.checked .words m).outcome = .ok m := by
  refine outcome_checked ?_
  show m.numStates32.toNat ≤ c.limits.maxStates.toNat
  rwa [toNat_numStates32 (Nat.lt_of_le_of_lt h c.limits.maxStates.toNat_lt)]

/-- The empty word under some stars. -/
def stars : Nat → Regex
  | 0 => .empty
  | n + 1 => .star (stars n)

/-- Each star needs one more state, so there are regexes of any size. -/
theorem exists_outcome_stars {n : Nat} (h : n + 1 ≤ c.limits.maxStates.toNat) :
    ∃ m, (c.buildIn .words (stars n)).outcome = .ok m ∧ m.numStates = n + 1 := by
  induction n with
  | zero => exact ⟨_, outcome_checked_of_le h, rfl⟩
  | succ n ih =>
    obtain ⟨m, hm, hstates⟩ := ih (by omega)
    have hstar : m.star32.numStates = n + 1 + 1 := by rw [numStates_star32, hstates]
    refine ⟨m.star32, ?_, hstar⟩
    rw [stars, buildIn, outcome_bind, hm]
    exact outcome_checked_of_le (hstar ▸ h)

/-- Two operands that pass their checks are joined before the union is checked. -/
theorem buildIn_union_self (h : (c.buildIn .words x).outcome = .ok m) :
    m.union32 m ∈ (c.buildIn .words (.union x x)).made ∧
      (c.buildIn .words (.union x x)).outcome = (c.checked .words (m.union32 m)).outcome := by
  have hcheck : m.union32 m ∈ (c.checked .words (m.union32 m)).made := List.mem_singleton_self _
  constructor
  · exact mem_made_bind.mpr (Or.inr ⟨m, h, mem_made_bind.mpr (Or.inr ⟨m, h, hcheck⟩)⟩)
  · rw [buildIn, outcome_bind, h]
    show ((c.buildIn .words x).bind _).outcome = _
    rw [outcome_bind, h]
    rfl

theorem exists_not_counted (h : 2 ^ 31 - 1 ≤ c.limits.maxStates.toNat) :
    ∃ x, ¬ (c.buildIn .words x).Counted := by
  obtain ⟨m, hm, hstates⟩ := exists_outcome_stars (c := c) (n := 2 ^ 31 - 2) h
  refine ⟨.union (stars (2 ^ 31 - 2)) (stars (2 ^ 31 - 2)), fun hcounted => ?_⟩
  have hlarge := hcounted _ (buildIn_union_self hm).1
  rw [numStates_union32, hstates] at hlarge
  exact absurd hlarge (by decide)

/-- Copies of the empty word have one state each. -/
theorem build_repetition_empty {text : String} (hcount : c.repetitionCount (.digits text) = .ok count)
    (hpos : 0 < count) (h : count ≤ c.limits.maxStates.toNat) :
    ∃ m, c.build (.repetition .empty (.digits text)) = .ok m ∧ m.numStates = count := by
  have hempty : c.checkSize (emptyWord c.alphabet) = .ok (emptyWord c.alphabet) :=
    if_neg (by rw [numStates_emptyWord]; omega)
  have hpower : ((emptyWord c.alphabet).power count).numStates = count := by
    rw [numStates_power, if_neg hpos.ne', numStates_emptyWord, Nat.one_mul]
  refine ⟨_, ?_, hpower⟩
  rw [build, hcount, build, hempty]
  show c.repeated count (emptyWord c.alphabet) = _
  rw [repeated, if_neg (by rw [numStates_emptyWord]; omega), checkSize, if_neg (by omega)]

/-! ## The bound -/

/-- **Machine words suffice exactly for limits of at most `2 ^ 31 - 2` states.** Then the states of all
automata that are made for any regex can be counted in 32 bits. Whenever they can, for whatever limit,
the automata are those that are made in exact numbers, every check sees the true number of states, and
the outcome is that of `build`. The product that is checked before a repetition never overflows. -/
theorem words_suffice_iff (c : Compiler) :
    ((∀ x, (c.buildIn .words x).Counted) ↔ c.limits.maxStates.toNat ≤ 2 ^ 31 - 2) ∧
      (∀ x, (c.buildIn .words x).Counted →
        c.buildIn .words x = c.buildIn .exact x ∧
          (∀ m ∈ (c.buildIn .words x).made, m.numStates32.toNat = m.numStates) ∧
          (c.buildIn .words x).outcome = c.build x) ∧
      ∀ (m : Automaton) (count : UInt32),
        (m.statesOfCopies count).toNat = m.numStates32.toNat * count.toNat := by
  refine ⟨⟨fun h => ?_, counted_buildIn⟩, fun x hx => ⟨?_, ?_, ?_⟩, toNat_statesOfCopies⟩
  · by_contra hlimit
    obtain ⟨x, hx⟩ := exists_not_counted (c := c) (by omega)
    exact hx (h x)
  · exact refines_buildIn c x hx
  · exact fun m hm => toNat_numStates32 (hx m hm)
  · exact outcome_buildIn_of_counted hx

/-- The case of one limit at the bound and one above it. -/
theorem words_suffice_iff_of_highest :
    let x := Regex.plus (.union (.terminal 'a') .empty)
    let c := Compiler.mk (.ofChars ['a']) ⟨"S", [], [], [], []⟩ ⟨0, 2147483646⟩
    c.limits.maxStates.toNat ≤ 2 ^ 31 - 2 ∧ (c.buildIn .words x).Counted ∧
      (c.buildIn .words x).outcome = c.build x ∧
      ¬ ∀ y, (buildIn { c with limits := ⟨0, 2147483647⟩ } .words y).Counted := by
  intro x c
  have hlimit : c.limits.maxStates.toNat ≤ 2 ^ 31 - 2 := by decide
  obtain ⟨hiff, hexact, -⟩ := words_suffice_iff c
  have hcounted := hiff.mpr hlimit x
  refine ⟨hlimit, hcounted, (hexact x hcounted).2.2, fun hall => ?_⟩
  have habove := (words_suffice_iff { c with limits := ⟨0, 2147483647⟩ }).1.mp hall
  exact absurd habove (by decide)

/-- Where the limit is one higher, two operands as large as it allows have a union with `2 ^ 32` states.
The check counts none, and the union comes out, although it is too large. -/
theorem union_passes_above_limit :
    let x := Regex.repetition .empty (.digits "2147483647")
    let c := Compiler.mk ∅ ⟨"S", [], [], [], []⟩ ⟨2147483647, 2147483647⟩
    ∃ m ∈ (c.buildIn .words (.union x x)).made, m.numStates = 2 ^ 32 ∧ m.numStates32 = 0 ∧
      (c.buildIn .words (.union x x)).outcome = .ok m ∧
      c.build (.union x x) = .error c.tooLarge := by
  intro x c
  obtain ⟨p, hbuild, hp⟩ : ∃ p, c.build x = .ok p ∧ p.numStates = 2147483647 :=
    build_repetition_empty rfl (by decide) (by decide)
  have hcounted : (c.buildIn .words x).Counted := counted_repetition (counted_empty c)
  have hwords : (c.buildIn .words x).outcome = .ok p := by
    rw [outcome_buildIn_of_counted hcounted, hbuild]
  obtain ⟨hmade, hout⟩ := buildIn_union_self hwords
  have hstates : (p.union32 p).numStates = 2 ^ 32 := by
    rw [numStates_union32, hp]
    rfl
  have hzero : (p.union32 p).numStates32 = 0 := by
    rw [numStates32, hstates]
    rfl
  have hnone : Arithmetic.words.numStates (p.union32 p) = 0 := congrArg UInt32.toNat hzero
  refine ⟨p.union32 p, hmade, hstates, hzero, ?_, ?_⟩
  · rw [hout, outcome_checked]
    rw [hnone]
    exact Nat.zero_le _
  · rw [build, hbuild]
    show c.checkSize (p.union p) = .error c.tooLarge
    rw [checkSize, if_pos]
    rw [numStates_union, hp]
    decide

end Compiler

end RegularLanguages
