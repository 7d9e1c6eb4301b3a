import RegularLanguages.Proofs.Automaton.Size
import RegularLanguages.Proofs.Regex.Language
import RegularLanguages.Proofs.Regex.Parsing

/-!
# How large the automaton of a regex gets

The number of states of a regex's automaton can be read off the regex (`Regex.states`). While the
automaton is built, each part of the regex is held against the limit of states and each count against
the limit of counts. So a buildable regex, one that is made of symbols of the alphabet and has counts
where they belong, is built if and only if it is within the limits; and if it is not, the error names
a limit that really is exceeded.
-/

namespace RegularLanguages

/-! ## Parts of a regex -/

namespace Regex

/-- The number that a count stands for; zero where there is no count. -/
def value : Regex → Nat
  | digits text => decimalValue text
  | _ => 0

/-- The number of states of the automaton of a regex. -/
def states : Regex → Nat
  | union a b => a.states + b.states + 2
  | emptyUnion a | option a => a.states + 3
  | empty => 1
  | concatenation a b => a.states + b.states
  | star a => a.states + 1
  | plus a => 2 * a.states + 1
  | repetition a count => if count.value = 0 then 1 else a.states * count.value
  | paren a => a.states
  | terminal _ => 2
  | digits _ => 0

/-- The regexes that a regex is made of, itself included. What stands behind `^` is none. -/
def parts : Regex → List Regex
  | union a b => union a b :: (a.parts ++ b.parts)
  | emptyUnion a => emptyUnion a :: a.parts
  | empty => [empty]
  | concatenation a b => concatenation a b :: (a.parts ++ b.parts)
  | option a => option a :: a.parts
  | star a => star a :: a.parts
  | plus a => plus a :: a.parts
  | repetition a count => repetition a count :: a.parts
  | paren a => paren a :: a.parts
  | terminal c => [terminal c]
  | digits text => [digits text]

/-- What stands behind `^` in a regex, from left to right. -/
def counts : Regex → List Regex
  | union a b | concatenation a b => a.counts ++ b.counts
  | emptyUnion a | option a | star a | plus a | paren a => a.counts
  | repetition a count => count :: a.counts
  | empty | terminal _ | digits _ => []

theorem self_mem_parts (x : Regex) : x ∈ x.parts := by
  cases x <;> exact List.mem_cons_self

/-- The regex is made of symbols of the alphabet, and it has counts where they belong. -/
def Buildable (S : Alphabet) : Regex → Prop
  | union a b | concatenation a b => a.Buildable S ∧ b.Buildable S
  | emptyUnion a | option a | star a | plus a | paren a => a.Buildable S
  | repetition a count => a.Buildable S ∧ ∃ text, count = digits text ∧ IsDecimal text
  | empty => True
  | terminal c => c ∈ S.symbols
  | digits _ => False

/-- No count and no part of the regex exceeds its limit. -/
structure Within (limits : Limits) (x : Regex) : Prop where
  value_le : ∀ n ∈ x.counts, n.value ≤ limits.maxRepetition.toNat
  states_le : ∀ y ∈ x.parts, y.states ≤ limits.maxStates.toNat

/-- The error names a limit that a count or a part of the regex exceeds. -/
inductive Exceeds (limits : Limits) (x : Regex) : Error → Prop
  | value {text : String} (hmem : digits text ∈ x.counts)
      (hlt : limits.maxRepetition.toNat < decimalValue text) :
      Exceeds limits x (.countTooLarge text limits.maxRepetition.toNat)
  | states {y : Regex} (hmem : y ∈ x.parts) (hlt : limits.maxStates.toNat < y.states) :
      Exceeds limits x (.tooManyStates limits.maxStates.toNat)

variable {limits : Limits} {x a b : Regex} {e : Error}

theorem Exceeds.mono (h : a.Exceeds limits e) (hcounts : a.counts ⊆ x.counts)
    (hparts : a.parts ⊆ x.parts) : x.Exceeds limits e := by
  cases h with
  | value hmem hlt => exact .value (hcounts hmem) hlt
  | states hmem hlt => exact .states (hparts hmem) hlt

theorem Exceeds.family_eq (h : x.Exceeds limits e) : e.family = .invalidFormat := by
  cases h <;> rfl

/-- What is within the limits exceeds none of them. -/
theorem Within.not_exceeds (h : x.Within limits) : ¬ x.Exceeds limits e := by
  intro hexceeds
  cases hexceeds with
  | value hmem hlt => exact Nat.not_le_of_lt hlt (h.value_le _ hmem)
  | states hmem hlt => exact Nat.not_le_of_lt hlt (h.states_le _ hmem)

end Regex

namespace Compiler

open Automaton Regex

variable {c : Compiler} {x a : Regex} {r : Except Error Automaton} {m : Automaton}

/-! ## Building within limits -/

/-- The regex is within the limits and the answer is an automaton of its number of states, or it is
not and the answer is an error that says why. -/
inductive Answers (c : Compiler) (x : Regex) : Except Error Automaton → Prop
  | ok {m : Automaton} (hstates : m.numStates = x.states) (hwithin : x.Within c.limits) :
      Answers c x (.ok m)
  | error {e : Error} (hexceeds : x.Exceeds c.limits e) : Answers c x (.error e)

/-- The check at the end of a construction, where the counts and the smaller parts have passed. -/
theorem answers_checkSize (hstates : m.numStates = x.states)
    (hvalue : ∀ n ∈ x.counts, n.value ≤ c.limits.maxRepetition.toNat)
    (hparts : ∀ y ∈ x.parts, y ≠ x → y.states ≤ c.limits.maxStates.toNat) :
    c.Answers x (c.checkSize m) := by
  unfold checkSize
  split
  · next hlt => exact .error (.states x.self_mem_parts (hstates ▸ hlt))
  · next hle =>
    refine .ok hstates ⟨hvalue, fun y hy => ?_⟩
    by_cases hyx : y = x
    · rw [hyx, ← hstates]
      exact Nat.not_lt.mp hle
    · exact hparts y hy hyx

/-- An operand is built first, and its error is the error of the whole. -/
theorem Answers.bind {f : Automaton → Except Error Automaton} (h : c.Answers a r)
    (hcounts : a.counts ⊆ x.counts) (hparts : a.parts ⊆ x.parts)
    (hf : ∀ m : Automaton, m.numStates = a.states → a.Within c.limits → c.Answers x (f m)) :
    c.Answers x (r.bind f) := by
  cases h with
  | ok hstates hwithin => exact hf _ hstates hwithin
  | error hexceeds => exact .error (hexceeds.mono hcounts hparts)

/-- An operator with one operand. -/
theorem Answers.unary {f : Automaton → Automaton} (h : c.Answers a r)
    (hparts : x.parts = x :: a.parts) (hcounts : x.counts = a.counts)
    (hf : ∀ m : Automaton, m.numStates = a.states → (f m).numStates = x.states) :
    c.Answers x (r.bind fun m => c.checkSize (f m)) := by
  refine h.bind (hcounts ▸ List.Subset.refl _) (hparts ▸ List.subset_cons_self _ _) ?_
  intro m hm hwithin
  refine answers_checkSize (hf m hm) (hcounts ▸ hwithin.value_le) fun y hy hne => ?_
  rw [hparts, List.mem_cons] at hy
  exact hwithin.states_le y (hy.resolve_left hne)

/-- An operator with two operands. -/
theorem Answers.binary {f : Automaton → Automaton → Automaton} {b : Regex}
    {s : Except Error Automaton} (ha : c.Answers a r) (hb : c.Answers b s)
    (hparts : x.parts = x :: (a.parts ++ b.parts)) (hcounts : x.counts = a.counts ++ b.counts)
    (hf : ∀ m n : Automaton, m.numStates = a.states → n.numStates = b.states →
      (f m n).numStates = x.states) :
    c.Answers x (r.bind fun m => s.bind fun n => c.checkSize (f m n)) := by
  have hpartsSubset : a.parts ++ b.parts ⊆ x.parts := hparts ▸ List.subset_cons_self _ _
  have hcountsSubset : a.counts ++ b.counts ⊆ x.counts := hcounts ▸ List.Subset.refl _
  refine ha.bind (List.append_subset.mp hcountsSubset).1 (List.append_subset.mp hpartsSubset).1 ?_
  intro m hm hain
  refine hb.bind (List.append_subset.mp hcountsSubset).2 (List.append_subset.mp hpartsSubset).2 ?_
  intro n hn hbin
  refine answers_checkSize (hf m n hm hn) ?_ fun y hy hne => ?_
  · rw [hcounts]
    exact List.forall_mem_append.mpr ⟨hain.value_le, hbin.value_le⟩
  · rw [hparts, List.mem_cons] at hy
    exact List.forall_mem_append.mpr ⟨hain.states_le, hbin.states_le⟩ y (hy.resolve_left hne)

theorem exists_literal {S : Alphabet} {symbol : Char} (h : symbol ∈ S.symbols) :
    ∃ id, S.symbol? id = some symbol ∧ literal S symbol = .ok (singleEdge S id) := by
  obtain ⟨id, hid⟩ := List.mem_iff_getElem?.mp h
  refine ⟨id, hid, ?_⟩
  rw [literal, Alphabet.symbol?_eq_some_iff.mp hid]
  exact if_pos (Alphabet.lt_size_of_symbol? hid)

theorem repetitionCount_of_isDecimal (c : Compiler) {text : String} (h : IsDecimal text) :
    c.repetitionCount (.digits text) =
      if decimalValue text ≤ c.limits.maxRepetition.toNat then .ok (decimalValue text)
      else .error (.countTooLarge text c.limits.maxRepetition.toNat) := by
  simp only [repetitionCount, countValue?_of_isDecimal h]

/-- A repetition, whose count has passed already. The product is checked before the copies are made,
and what is made has the same size, except that no copies still need a state. -/
theorem Answers.repeated {count : Regex} (h : c.Answers a r)
    (hvalue : count.value ≤ c.limits.maxRepetition.toNat) :
    c.Answers (.repetition a count) (r.bind fun m => c.repeated count.value m) := by
  refine h.bind (List.subset_cons_self _ _) (List.subset_cons_self _ _) fun m hm hwithin => ?_
  have hstates : (m.power count.value).numStates = (Regex.repetition a count).states := by
    rw [numStates_power, hm, Regex.states]
  rw [Compiler.repeated]
  split
  · next hlt =>
    -- a product that is too large is not zero, so it is the number of states
    rw [hm] at hlt
    have hne : count.value ≠ 0 := by
      rintro hzero
      simp [hzero] at hlt
    refine .error (.states (self_mem_parts _) ?_)
    rwa [Regex.states, if_neg hne]
  · refine answers_checkSize hstates (List.forall_mem_cons.mpr ⟨hvalue, hwithin.value_le⟩) ?_
    intro y hy hne
    exact hwithin.states_le y ((List.mem_cons.mp hy).resolve_left hne)

/-- **Building a regex succeeds within the limits**, and else names a limit that is exceeded. -/
theorem answers_build (hx : x.Buildable c.alphabet) : c.Answers x (c.build x) := by
  induction x with
  | terminal symbol =>
    obtain ⟨id, -, hliteral⟩ := exists_literal hx
    rw [build, hliteral]
    exact answers_checkSize rfl (by simp [counts]) (by simp [parts])
  | empty => exact answers_checkSize rfl (by simp [counts]) (by simp [parts])
  | emptyUnion x ih | option x ih => exact (ih hx).unary rfl rfl fun m hm => by simp [states, hm]
  | star x ih | plus x ih => exact (ih hx).unary rfl rfl fun m hm => by simp [states, hm]
  | paren x ih => exact (ih hx).unary rfl rfl fun m hm => hm
  | union a b iha ihb | concatenation a b iha ihb =>
    exact (iha hx.1).binary (ihb hx.2) rfl rfl fun m n hm hn => by simp [states, hm, hn]
  | repetition x count ih _ =>
    obtain ⟨hx, text, rfl, htext⟩ := hx
    rw [build, repetitionCount_of_isDecimal c htext]
    split
    · next hle => exact (ih hx).repeated hle
    · next hlt => exact .error (.value List.mem_cons_self (Nat.not_le.mp hlt))
  | digits text => exact hx.elim

/-- A buildable regex is built if and only if it is within the limits. -/
theorem build_eq_ok_iff (hx : x.Buildable c.alphabet) :
    (∃ m, c.build x = .ok m) ↔ x.Within c.limits := by
  have hanswers := answers_build hx
  generalize c.build x = r at hanswers
  cases hanswers with
  | ok _ hwithin => exact iff_of_true ⟨_, rfl⟩ hwithin
  | error hexceeds =>
    refine iff_of_false ?_ fun hwithin => hwithin.not_exceeds hexceeds
    rintro ⟨m, hm⟩
    cases hm

end Compiler

/-! ## Layered regexes -/

namespace Regex

variable {S : Alphabet} {l : Layer} {x : Regex}

/-- A layered regex gives no reason to refuse it but its size. -/
theorem Layered.buildable (h : Layered S l x) : x.Buildable S := by
  induction h with
  | union _ _ iha ihb | concatenation _ _ iha ihb => exact ⟨iha, ihb⟩
  | emptyUnion _ ih | option _ ih | star _ ih | plus _ ih | paren _ ih => exact ih
  | ofConcatenation _ ih | ofOption _ ih | ofRepetition _ ih | ofAtom _ ih => exact ih
  | empty => exact trivial
  | repetition _ hcount ih => exact ⟨ih, _, rfl, hcount⟩
  | terminal hc => exact hc

/-- A buildable regex has its counts in decimal. -/
theorem Buildable.countsAreDecimal (h : x.Buildable S) : x.CountsAreDecimal := by
  induction x with
  | union a b iha ihb | concatenation a b iha ihb => exact ⟨iha h.1, ihb h.2⟩
  | emptyUnion a ih | option a ih | star a ih | plus a ih | paren a ih => exact ih h
  | repetition a count ih _ => exact ⟨ih h.1, h.2⟩
  | empty | terminal c | digits text => exact trivial

end Regex

/-! ## Compiling -/

namespace Compiler

open Regex

variable {S : Alphabet} {c : Compiler} {limits : Limits} {text : String} {x : Regex}

theorem exists_of_ofAlphabet_eq_ok (h : ofAlphabet S limits = .ok c) :
    ∃ g, Regex.grammar S = .ok g ∧ c = ⟨S, g, limits⟩ := by
  obtain ⟨g, hg, rfl⟩ := exists_of_map_eq_ok h
  exact ⟨g, hg, rfl⟩

/-- What is compiled is the automaton of a layered regex. -/
theorem exists_layered_of_compile (hS : Harmless S) (hc : ofAlphabet S limits = .ok c) {m : Automaton}
    (h : c.compile text = .ok m) :
    ∃ x, Layered S .union x ∧ x.toString = Spelling.normalise text ∧ x.Within limits ∧
      m.Recognises S S.symbol? x.language := by
  obtain ⟨g, hg, rfl⟩ := exists_of_ofAlphabet_eq_ok hc
  obtain ⟨x, hparse, hbuild⟩ := exists_of_bind_eq_ok h
  obtain ⟨hx, htext⟩ := (parse_eq_ok_iff hS hg).mp hparse
  have hwithin : x.Within limits := (build_eq_ok_iff (c := ⟨S, g, limits⟩) hx.buildable).mp ⟨m, hbuild⟩
  exact ⟨x, hx, htext, hwithin,
    (built_of_build hbuild).recognises hx.buildable.countsAreDecimal⟩

/-- A layered regex within the limits is compiled from its text. -/
theorem exists_compile (text : String) (hS : Harmless S) (hc : ofAlphabet S limits = .ok c)
    (hx : Layered S .union x) (htext : x.toString = Spelling.normalise text)
    (hwithin : x.Within limits) :
    ∃ m, c.compile text = .ok m ∧ m.Recognises S S.symbol? x.language := by
  obtain ⟨g, hg, rfl⟩ := exists_of_ofAlphabet_eq_ok hc
  obtain ⟨m, hm⟩ := (build_eq_ok_iff (c := ⟨S, g, limits⟩) hx.buildable).mpr hwithin
  refine ⟨m, ?_, (built_of_build hm).recognises hx.buildable.countsAreDecimal⟩
  rw [compile, (parse_eq_ok_iff hS hg).mpr ⟨hx, htext⟩]
  exact hm

end Compiler

end RegularLanguages
