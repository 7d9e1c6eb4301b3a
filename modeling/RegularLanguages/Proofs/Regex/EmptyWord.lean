import RegularLanguages.Proofs.Regex.States

/-!
# The empty word in the middle of a regex

A regex can spell the empty word as an empty pair of parentheses, or it can leave it out. Bringing a
text into canonical form deletes `ε`, so `ε` is read as if nothing had been written. This module says
when it makes no difference to leave a pair `()` out.

## Mechanism

`Drops` is one such step on syntax trees: the pair disappears, together with the operator that joined
it to its neighbour. A step keeps the language and makes no part larger. In the text, a pair that
nothing is put behind as a postfix operator can always be dropped (`Layered.dropsPairs`): the proof
finds the operand that the pair lies in, and goes down into it. A postfix operator behind the pair
would come to stand behind what is in front of the pair, and change its meaning.
-/

namespace RegularLanguages

namespace Regex

open Computability

variable {S : Alphabet} {l : Layer} {x y a b : Regex} {p q u v : List Char}

/-! ## Leaving a pair of parentheses out -/

/-- The second regex is the first one without one of its empty pairs of parentheses. -/
inductive Drops : Regex → Regex → Prop
  | pair : Drops (.paren .empty) .empty
  | unionPair (b : Regex) : Drops (.union (.paren .empty) b) (.emptyUnion b)
  | pairBefore (b : Regex) : Drops (.concatenation (.paren .empty) b) b
  | pairBehind (a : Regex) : Drops (.concatenation a (.paren .empty)) a
  | unionLeft {a a' : Regex} (h : Drops a a') (b : Regex) : Drops (.union a b) (.union a' b)
  | unionRight {b b' : Regex} (a : Regex) (h : Drops b b') : Drops (.union a b) (.union a b')
  | emptyUnion {a a' : Regex} (h : Drops a a') : Drops (.emptyUnion a) (.emptyUnion a')
  | concatenationLeft {a a' : Regex} (h : Drops a a') (b : Regex) :
      Drops (.concatenation a b) (.concatenation a' b)
  | concatenationRight {b b' : Regex} (a : Regex) (h : Drops b b') :
      Drops (.concatenation a b) (.concatenation a b')
  | option {a a' : Regex} (h : Drops a a') : Drops (.option a) (.option a')
  | star {a a' : Regex} (h : Drops a a') : Drops (.star a) (.star a')
  | plus {a a' : Regex} (h : Drops a a') : Drops (.plus a) (.plus a')
  | repetition {a a' : Regex} (h : Drops a a') (count : Regex) :
      Drops (.repetition a count) (.repetition a' count)
  | paren {a a' : Regex} (h : Drops a a') : Drops (.paren a) (.paren a')

/-- **Leaving a pair out keeps the language.** -/
theorem Drops.language_eq (h : Drops x y) : y.language = x.language := by
  induction h with
  | pair => rw [language_paren]
  | unionPair b =>
    rw [language_emptyUnion, language_union, language_paren, language_empty, add_comm]
  | pairBefore b => rw [language_concatenation, language_paren, language_empty, one_mul]
  | pairBehind a => rw [language_concatenation, language_paren, language_empty, mul_one]
  | unionLeft _ _ ih | unionRight _ _ ih => rw [language_union, language_union, ih]
  | emptyUnion _ ih => rw [language_emptyUnion, language_emptyUnion, ih]
  | concatenationLeft _ _ ih | concatenationRight _ _ ih =>
    rw [language_concatenation, language_concatenation, ih]
  | option _ ih => rw [language_option, language_option, ih]
  | star _ ih => rw [language_star, language_star, ih]
  | plus _ ih => rw [language_plus, language_plus, ih]
  | repetition _ count ih =>
    cases count with
    | digits text => rw [language_repetition, language_repetition, ih]
    | _ => rfl
  | paren _ ih => rw [language_paren, language_paren, ih]

theorem Drops.states_le (h : Drops x y) : y.states ≤ x.states := by
  induction h with
  | pair | unionPair | pairBefore | pairBehind =>
    simp only [states]
    omega
  | repetition _ count ih =>
    simp only [states]
    split
    · exact Nat.le_refl 1
    · exact Nat.mul_le_mul_right _ ih
  | unionLeft _ _ ih | unionRight _ _ ih | emptyUnion _ ih | concatenationLeft _ _ ih
  | concatenationRight _ _ ih | option _ ih | star _ ih | plus _ ih | paren _ ih =>
    simp only [states]
    omega

theorem Drops.counts_eq (h : Drops x y) : y.counts = x.counts := by
  induction h with
  | pair | unionPair | pairBefore => rfl
  | pairBehind => simp [counts]
  | unionLeft _ _ ih | unionRight _ _ ih | emptyUnion _ ih | concatenationLeft _ _ ih
  | concatenationRight _ _ ih | option _ ih | star _ ih | plus _ ih | paren _ ih
  | repetition _ _ ih => simp only [counts, ih]

/-- No part that is left is larger than all the parts that there were. -/
theorem Drops.parts_le {n : Nat} (h : Drops x y) (hx : ∀ z ∈ x.parts, z.states ≤ n) :
    ∀ z ∈ y.parts, z.states ≤ n := by
  have hcons : ∀ {x y : Regex} {rest : List Regex}, Drops x y → (∀ z ∈ x.parts, z.states ≤ n) →
      (∀ z ∈ rest, z.states ≤ n) → ∀ z ∈ y :: rest, z.states ≤ n := fun h hx hrest =>
    List.forall_mem_cons.mpr ⟨h.states_le.trans (hx _ (self_mem_parts _)), hrest⟩
  induction h with
  | pair => simpa [parts, states] using hx
  | pairBefore b => exact fun z hz => hx z (by simp [parts, hz])
  | pairBehind a => exact fun z hz => hx z (by simp [parts, hz])
  | unionPair b => exact hcons (.unionPair b) hx fun z hz => hx z (by simp [parts, hz])
  | unionLeft h b ih | concatenationLeft h b ih =>
    obtain ⟨ha, hb⟩ := List.forall_mem_append.mp (List.forall_mem_cons.mp hx).2
    exact hcons (by constructor; exact h) hx (List.forall_mem_append.mpr ⟨ih ha, hb⟩)
  | unionRight a h ih | concatenationRight a h ih =>
    obtain ⟨ha, hb⟩ := List.forall_mem_append.mp (List.forall_mem_cons.mp hx).2
    exact hcons (by constructor; exact h) hx (List.forall_mem_append.mpr ⟨ha, ih hb⟩)
  | emptyUnion h ih | option h ih | star h ih | plus h ih | repetition h _ ih | paren h ih =>
    exact hcons (by constructor; exact h) hx (ih (List.forall_mem_cons.mp hx).2)

theorem Drops.within {limits : Limits} (h : Drops x y) (hx : x.Within limits) : y.Within limits :=
  ⟨h.counts_eq ▸ hx.value_le, h.parts_le hx.states_le⟩

/-! ## Ends of texts -/

/-- The text does not begin with a closing parenthesis, nor does it end with an opening one. -/
structure Closed (u : List Char) : Prop where
  head_ne : u.head? ≠ some ')'
  last_ne : u.getLast? ≠ some '('

theorem Closed.append (hu : Closed u) (hv : Closed v) : Closed (u ++ v) where
  head_ne h := by
    rw [List.head?_append, Option.or_eq_some_iff] at h
    exact h.elim hu.head_ne fun h => hv.head_ne h.2
  last_ne h := by
    rw [List.getLast?_append, Option.or_eq_some_iff] at h
    exact h.elim hv.last_ne fun h => hu.last_ne h.2

/-- A text without parentheses has closed ends. -/
theorem closed_of_forall (h : ∀ c ∈ u, c ≠ '(' ∧ c ≠ ')') : Closed u where
  head_ne hhead := (h _ (List.mem_of_head? hhead)).2 rfl
  last_ne hlast := (h _ (List.mem_of_getLast? hlast)).1 rfl

theorem closed_of_isDecimal {text : String} (h : IsDecimal text) : Closed text.toList := by
  refine closed_of_forall fun c hc => ⟨?_, ?_⟩
  · rintro rfl
    exact absurd (h.2 _ hc) (by decide)
  · rintro rfl
    exact absurd (h.2 _ hc) (by decide)

theorem Layered.closed (hS : Harmless S) (h : Layered S l x) : Closed x.toString.toList := by
  have hopen : '(' ∉ S.symbols := hS.not_mem (by decide) (by decide)
  have hclose : ')' ∉ S.symbols := hS.not_mem (by decide) (by decide)
  have hmark : ∀ c ∈ ['|', '*', '+', '^', '?'], Closed [c] := fun c hc =>
    closed_of_forall fun d hd => by
      obtain rfl := List.mem_singleton.mp hd
      exact ⟨by rintro rfl; simp at hc, by rintro rfl; simp at hc⟩
  induction h with
  | empty => exact closed_of_forall (by simp [Regex.toString])
  | union _ _ iha ihb =>
    simpa [Regex.toString] using iha.append ((hmark '|' (by simp)).append ihb)
  | emptyUnion _ ih => simpa [Regex.toString] using (hmark '|' (by simp)).append ih
  | concatenation _ _ iha ihb => simpa [Regex.toString] using iha.append ihb
  | option _ ih => simpa [Regex.toString] using ih.append (hmark '?' (by simp))
  | star _ ih => simpa [Regex.toString] using ih.append (hmark '*' (by simp))
  | plus _ ih => simpa [Regex.toString] using ih.append (hmark '+' (by simp))
  | repetition _ hcount ih =>
    simpa [Regex.toString] using ih.append ((hmark '^' (by simp)).append (closed_of_isDecimal hcount))
  | ofConcatenation _ ih | ofOption _ ih | ofRepetition _ ih | ofAtom _ ih => exact ih
  | @paren a _ ih =>
    have htext : (Regex.paren a).toString.toList = ('(' :: a.toString.toList) ++ [')'] := by
      simp [Regex.toString]
    rw [htext]
    exact ⟨by simp, by simp only [List.getLast?_concat]; decide⟩
  | @terminal c hc =>
    refine closed_of_forall fun d hd => ?_
    obtain rfl : d = c := by simpa [Regex.toString] using hd
    exact ⟨fun h => hopen (h ▸ hc), fun h => hclose (h ▸ hc)⟩

/-! ## Finding the pair in the text -/

/-- A pair in a text of two pieces is in one of them, if the first one has closed ends. -/
theorem split_pair (hu : Closed u) (h : u ++ v = p ++ '(' :: ')' :: q) :
    (∃ r, u = p ++ '(' :: ')' :: r ∧ q = r ++ v) ∨ ∃ r, p = u ++ r ∧ v = r ++ '(' :: ')' :: q := by
  rcases List.append_eq_append_iff.mp h with ⟨r, rfl, hv⟩ | ⟨r, rfl, hr⟩
  · exact Or.inr ⟨r, rfl, hv⟩
  · -- the second piece begins somewhere in the pair or behind it
    rcases r with _ | ⟨c, _ | ⟨d, r⟩⟩
    · exact Or.inr ⟨[], by simp, by simpa using hr.symm⟩
    · obtain ⟨rfl, -⟩ : '(' = c ∧ _ := by simpa using hr
      exact absurd List.getLast?_concat hu.last_ne
    · obtain ⟨rfl, rfl, rfl⟩ : '(' = c ∧ ')' = d ∧ q = r ++ v := by simpa using hr
      exact Or.inl ⟨r, rfl, rfl⟩

/-- The operators that are written behind their operand. -/
def trailingOperators : List Char := ['*', '+', '^', '?']

/-- The text does not begin with a postfix operator. -/
def NoTrailing (u : List Char) : Prop := ∀ c ∈ u.head?, c ∉ trailingOperators

theorem noTrailing_cons {c : Char} : NoTrailing (c :: u) ↔ c ∉ trailingOperators := by
  simp [NoTrailing]

theorem NoTrailing.of_append (h : NoTrailing (u ++ v)) : NoTrailing u := by
  intro c hc
  exact h c (by simp [Option.mem_def.mp hc])

/-- The regex can be written without one of its pairs, in the same layer and with the rest of the
text. -/
def Droppable (S : Alphabet) (l : Layer) (x : Regex) (rest : List Char) : Prop :=
  ∃ y, Drops x y ∧ Layered S l y ∧ y.toString.toList = rest

/-- The regex is the pair. -/
structure IsPair (x : Regex) (p q : List Char) : Prop where
  eq_pair : x = .paren .empty
  before_nil : p = []
  behind_nil : q = []

/-- Each pair in the text that no postfix operator stands behind can be left out, or it is all that
there is. -/
def DropsPairs (S : Alphabet) (l : Layer) (x : Regex) : Prop :=
  ∀ p q, x.toString.toList = p ++ '(' :: ')' :: q → NoTrailing q →
    Droppable S l x (p ++ q) ∨ IsPair x p q

/-- A union can be a pair and nothing else; then it becomes empty. -/
theorem DropsPairs.droppable (h : DropsPairs S .union x)
    (htext : x.toString.toList = p ++ '(' :: ')' :: q) (hq : NoTrailing q) :
    Droppable S .union x (p ++ q) := by
  rcases h p q htext hq with hdrop | ⟨rfl, rfl, rfl⟩
  · exact hdrop
  · exact ⟨.empty, .pair, .empty, rfl⟩

/-- In a text without parentheses there is no pair. -/
theorem dropsPairs_of_not_mem (h : '(' ∉ x.toString.toList) : DropsPairs S l x := by
  intro p q htext
  exact absurd (htext ▸ by simp) h

/-- A weaker layer asks for no more than the layer of the regex. -/
theorem DropsPairs.weaken {k : Layer} (h : DropsPairs S l x)
    (hlayered : ∀ y, Layered S l y → Layered S k y) : DropsPairs S k x := by
  intro p q htext hq
  refine (h p q htext hq).imp ?_ id
  rintro ⟨y, hy, hlayer, hrest⟩
  exact ⟨y, hy, hlayered y hlayer, hrest⟩

/-- A pair before a postfix operator is in the operand, and something else is between the two. -/
theorem DropsPairs.trailing {k : Layer} (wrap : Regex → Regex) {tail : List Char}
    (h : DropsPairs S k a) (ha : Closed a.toString.toList)
    (htext : ∀ b, (wrap b).toString.toList = b.toString.toList ++ tail)
    (hopen : '(' ∉ tail) (htail : ¬ NoTrailing tail) (hdrops : ∀ b, Drops a b → Drops (wrap a) (wrap b))
    (hlayered : ∀ b, Layered S k b → Layered S l (wrap b)) : DropsPairs S l (wrap a) := by
  intro p q heq hq
  rw [htext] at heq
  rcases split_pair ha heq with ⟨r, hr, rfl⟩ | ⟨r, -, hr⟩
  · rcases h p r hr hq.of_append with ⟨b, hb, hlayer, hrest⟩ | ⟨-, -, rfl⟩
    · exact Or.inl ⟨wrap b, hdrops b hb, hlayered b hlayer, by rw [htext, hrest, List.append_assoc]⟩
    · exact absurd hq htail
  · exact absurd (hr ▸ by simp) hopen

/-- A pair in a union is in one of the two operands. -/
theorem dropsPairs_union (hS : Harmless S) (hla : Layered S .concatenation a)
    (hlb : Layered S .union b) (ha : DropsPairs S .concatenation a) (hb : DropsPairs S .union b) :
    DropsPairs S .union (.union a b) := by
  intro p q heq hq
  have htext : (Regex.union a b).toString.toList =
      a.toString.toList ++ '|' :: b.toString.toList := by simp [Regex.toString]
  rw [htext] at heq
  rcases split_pair (hla.closed hS) heq with ⟨r, hr, rfl⟩ | ⟨r, rfl, hr⟩
  · rcases ha p r hr hq.of_append with ⟨y, hy, hlayer, hrest⟩ | ⟨rfl, rfl, rfl⟩
    · exact Or.inl ⟨.union y b, .unionLeft hy b, .union hlayer hlb, by simp [Regex.toString, hrest]⟩
    · -- nothing is left in front of the bar
      exact Or.inl ⟨.emptyUnion b, .unionPair b, .emptyUnion hlb, by simp [Regex.toString]⟩
  · obtain ⟨s, rfl, hs⟩ : ∃ s, r = '|' :: s ∧ b.toString.toList = s ++ '(' :: ')' :: q := by
      rcases r with _ | ⟨c, s⟩
      · simp at hr
      · obtain ⟨rfl, hs⟩ := List.cons.inj hr
        exact ⟨s, rfl, hs⟩
    obtain ⟨y, hy, hlayer, hrest⟩ := hb.droppable hs hq
    exact Or.inl ⟨.union a y, .unionRight a hy, .union hla hlayer, by simp [Regex.toString, hrest]⟩

theorem dropsPairs_emptyUnion (h : DropsPairs S .union a) : DropsPairs S .union (.emptyUnion a) := by
  intro p q heq hq
  have htext : (Regex.emptyUnion a).toString.toList = '|' :: a.toString.toList := by
    simp [Regex.toString]
  rw [htext] at heq
  rcases p with _ | ⟨c, p⟩
  · simp at heq
  · obtain ⟨rfl, hp⟩ := List.cons.inj heq
    obtain ⟨y, hy, hlayer, hrest⟩ := h.droppable hp hq
    exact Or.inl ⟨.emptyUnion y, .emptyUnion hy, .emptyUnion hlayer, by simp [Regex.toString, hrest]⟩

/-- A pair in a concatenation is in one of the two operands. If it is all of that operand, the other
one is left. -/
theorem dropsPairs_concatenation (hS : Harmless S) (hla : Layered S .option a)
    (hlb : Layered S .concatenation b) (ha : DropsPairs S .option a)
    (hb : DropsPairs S .concatenation b) : DropsPairs S .concatenation (.concatenation a b) := by
  intro p q heq hq
  have htext : (Regex.concatenation a b).toString.toList =
      a.toString.toList ++ b.toString.toList := by simp [Regex.toString]
  rw [htext] at heq
  rcases split_pair (hla.closed hS) heq with ⟨r, hr, rfl⟩ | ⟨r, rfl, hr⟩
  · rcases ha p r hr hq.of_append with ⟨y, hy, hlayer, hrest⟩ | ⟨rfl, rfl, rfl⟩
    · exact Or.inl ⟨.concatenation y b, .concatenationLeft hy b, .concatenation hlayer hlb,
        by simp [Regex.toString, hrest]⟩
    · exact Or.inl ⟨b, .pairBefore b, hlb, rfl⟩
  · rcases hb r q hr hq with ⟨y, hy, hlayer, hrest⟩ | ⟨rfl, rfl, rfl⟩
    · exact Or.inl ⟨.concatenation a y, .concatenationRight a hy, .concatenation hla hlayer,
        by simp [Regex.toString, hrest]⟩
    · exact Or.inl ⟨a, .pairBehind a, .ofOption hla, by simp⟩

/-- A pair in parentheses is inside them, or it is made of them. -/
theorem dropsPairs_paren (hS : Harmless S) (hla : Layered S .union a) (h : DropsPairs S .union a) :
    DropsPairs S .atom (.paren a) := by
  intro p q heq hq
  have htext : (Regex.paren a).toString.toList = '(' :: (a.toString.toList ++ [')']) := by
    simp [Regex.toString]
  have hclosed := hla.closed hS
  rw [htext] at heq
  rcases p with _ | ⟨c, p⟩
  · -- the pair begins with the parenthesis, so what is inside begins with `)`, or nothing is inside
    right
    have hinside : a.toString.toList ++ [')'] = ')' :: q := (List.cons.inj heq).2
    cases hinner : a.toString.toList with
    | nil =>
      have hq' : q = [] := by simpa [hinner] using hinside.symm
      obtain rfl : a = .empty := hla.eq_of_toString_eq .empty hS (String.toList_inj.mp hinner)
      exact ⟨rfl, rfl, hq'⟩
    | cons d rest =>
      rw [hinner] at hinside hclosed
      obtain ⟨rfl, -⟩ := List.cons.inj hinside
      exact absurd rfl hclosed.head_ne
  · left
    obtain ⟨rfl, hinside⟩ := List.cons.inj heq
    rcases split_pair hclosed hinside with ⟨r, hr, rfl⟩ | ⟨r, -, hr⟩
    · obtain ⟨y, hy, hlayer, hrest⟩ := h.droppable hr hq.of_append
      exact ⟨.paren y, .paren hy, .paren hlayer, by simp [Regex.toString, hrest]⟩
    · have hmem : '(' ∈ [')'] := hr ▸ by simp
      exact absurd hmem (by decide)

/-- **A pair of parentheses that no postfix operator stands behind can be left out.** -/
theorem Layered.dropsPairs (hS : Harmless S) (h : Layered S l x) : DropsPairs S l x := by
  have htrailing : ∀ c rest, c ∈ trailingOperators → ¬ NoTrailing (c :: rest) :=
    fun _ _ hc h => noTrailing_cons.mp h hc
  induction h with
  | empty => exact dropsPairs_of_not_mem (by simp [Regex.toString])
  | union ha hb iha ihb => exact dropsPairs_union hS ha hb iha ihb
  | emptyUnion _ ih => exact dropsPairs_emptyUnion ih
  | ofConcatenation _ ih => exact ih.weaken fun _ => .ofConcatenation
  | concatenation ha hb iha ihb => exact dropsPairs_concatenation hS ha hb iha ihb
  | ofOption _ ih => exact ih.weaken fun _ => .ofOption
  | option ha ih =>
    exact ih.trailing .option (ha.closed hS) (fun b => by simp [Regex.toString]) (by decide)
      (htrailing '?' [] (by decide)) (fun _ => .option) (fun _ => .option)
  | ofRepetition _ ih => exact ih.weaken fun _ => .ofRepetition
  | star ha ih =>
    exact ih.trailing .star (ha.closed hS) (fun b => by simp [Regex.toString]) (by decide)
      (htrailing '*' [] (by decide)) (fun _ => .star) (fun _ => .star)
  | plus ha ih =>
    exact ih.trailing .plus (ha.closed hS) (fun b => by simp [Regex.toString]) (by decide)
      (htrailing '+' [] (by decide)) (fun _ => .plus) (fun _ => .plus)
  | @repetition a count ha hcount ih =>
    have hopen : '(' ∉ '^' :: count.toList := by
      rw [List.mem_cons, not_or]
      exact ⟨by decide, fun hmem => absurd (hcount.2 _ hmem) (by decide)⟩
    exact ih.trailing (fun a => .repetition a (.digits count)) (ha.closed hS)
      (fun b => by simp [Regex.toString]) hopen (htrailing '^' _ (by decide))
      (fun _ h => .repetition h _) (fun _ h => .repetition h hcount)
  | ofAtom _ ih => exact ih.weaken fun _ => .ofAtom
  | paren ha ih => exact dropsPairs_paren hS ha ih
  | @terminal c hc =>
    have hopen : '(' ∉ S.symbols := hS.not_mem (by decide) (by decide)
    refine dropsPairs_of_not_mem fun hmem => hopen ?_
    obtain rfl : '(' = c := by simpa [Regex.toString] using hmem
    exact hc

end Regex

/-! ## What `ε` stands for -/

namespace Compiler

open Regex

variable {S : Alphabet} {c : Compiler} {limits : Limits} {u v : String} {m : Automaton}

/-- **`ε` stands for the empty word where no postfix operator is behind it.** If a text with a pair of
parentheses is compiled, so is the text with `ε` in its place, and the two automata accept the same
words. States are counted in exact numbers under every limit; counted in 32 bits, both outcomes are the
same under limits of at most `2 ^ 31 - 2` states (`outcome_compileIn_words`). -/
theorem compile_of_compile_pair (hS : Harmless S) (hc : ofAlphabet S limits = .ok c)
    (hv : NoTrailing (Spelling.normalise v).toList) (h : c.compile (u ++ "()" ++ v) = .ok m) :
    ∃ n, c.compile (u ++ "ε" ++ v) = .ok n ∧ ∀ w, n.accepts w = m.accepts w := by
  obtain ⟨x, hx, htext, hwithin, hm⟩ := exists_layered_of_compile hS hc h
  have hpair : x.toString.toList =
      (Spelling.normalise u).toList ++ '(' :: ')' :: (Spelling.normalise v).toList := by
    rw [htext, Spelling.normalise_append, Spelling.normalise_append,
      show Spelling.normalise "()" = "()" by decide]
    simp
  obtain ⟨y, hy, hlayer, hrest⟩ := (hx.dropsPairs hS).droppable hpair hv
  have hytext : y.toString = Spelling.normalise (u ++ "ε" ++ v) := by
    rw [← String.toList_inj, hrest, Spelling.normalise_append, Spelling.normalise_append,
      show Spelling.normalise "ε" = "" by decide]
    simp
  obtain ⟨n, hcompile, hn⟩ := exists_compile _ hS hc hlayer hytext (hy.within hwithin)
  refine ⟨n, hcompile, fun w => ?_⟩
  rw [Bool.eq_iff_iff, hn.accepts_iff, hm.accepts_iff, hy.language_eq]

/-- The case of a pair in the middle of a union below a star. -/
theorem compile_of_compile_pair_of_union :
    ∃ c m, ofAlphabet (.ofChars ['a', 'b']) .standard = .ok c ∧
      Harmless (.ofChars ['a', 'b']) ∧ NoTrailing (Spelling.normalise "b)*").toList ∧
      c.compile ("(a|" ++ "()" ++ "b)*") = .ok m ∧
      ∃ n, c.compile ("(a|" ++ "ε" ++ "b)*") = .ok n ∧ ∀ w, n.accepts w = m.accepts w := by
  have hS : Harmless (.ofChars ['a', 'b']) := by
    show ∀ c ∈ ['a', 'b'], _
    exact List.forall_mem_cons.mpr ⟨by decide, List.forall_mem_singleton.mpr (by decide)⟩
  have hv : NoTrailing (Spelling.normalise "b)*").toList := by
    show NoTrailing ['b', ')', '*']
    exact noTrailing_cons.mpr (by decide)
  obtain ⟨g, hg⟩ := exists_grammar (.ofChars ['a', 'b'])
  have hc := ofAlphabet_eq hg .standard
  have hx : Layered (.ofChars ['a', 'b']) .union
      (.star (.paren (.union (.terminal 'a') (.concatenation (.paren .empty) (.terminal 'b'))))) :=
    .of_repetition (.star (.paren (.union
      (.ofOption (.ofRepetition (.ofAtom (.terminal (by decide)))))
      (.ofConcatenation (.concatenation (.ofRepetition (.ofAtom (.paren .empty)))
        (.ofOption (.ofRepetition (.ofAtom (.terminal (by decide))))))))))
  obtain ⟨m, hm, -⟩ := exists_compile ("(a|" ++ "()" ++ "b)*") hS hc hx (by decide)
    ⟨by decide, by decide⟩
  exact ⟨_, m, hc, hS, hv, hm, compile_of_compile_pair hS hc hv hm⟩

/-- Where a postfix operator is behind `ε`, its operand is what stands in front of `ε`: with a pair
the text stands for one letter, and with `ε` for any number of letters. -/
theorem compile_pair_differs_before_star :
    ∃ c m n, ofAlphabet (.ofChars ['a']) .standard = .ok c ∧
      c.compile ("a" ++ "()" ++ "*") = .ok m ∧ c.compile ("a" ++ "ε" ++ "*") = .ok n ∧
      m.accepts "aa" = false ∧ n.accepts "aa" = true := by
  have hS : Harmless (.ofChars ['a']) := by
    show ∀ c ∈ ['a'], _
    exact List.forall_mem_singleton.mpr (by decide)
  obtain ⟨g, hg⟩ := exists_grammar (.ofChars ['a'])
  have hc := ofAlphabet_eq hg .standard
  have ha : Layered (.ofChars ['a']) .atom (.terminal 'a') := .terminal (by decide)
  have hx : Layered (.ofChars ['a']) .union
      (.concatenation (.terminal 'a') (.star (.paren .empty))) :=
    .ofConcatenation (.concatenation (.ofRepetition (.ofAtom ha))
      (.ofOption (.ofRepetition (.star (.paren .empty)))))
  obtain ⟨m, hm, hpair⟩ := exists_compile ("a" ++ "()" ++ "*") hS hc hx (by decide)
    ⟨by decide, by decide⟩
  obtain ⟨n, hn, hsign⟩ := exists_compile ("a" ++ "ε" ++ "*") hS hc
    (.of_repetition (.star ha)) (by decide) ⟨by decide, by decide⟩
  refine ⟨_, m, n, hc, hm, hn, ?_, (hsign.accepts_iff _).mpr ?_⟩
  · rw [Bool.eq_false_iff, ne_eq, hpair.accepts_iff, language_concatenation, language_star,
      language_paren, language_empty, kstar_one, mul_one, language_terminal]
    show "aa".toList ≠ ['a']
    decide
  · rw [language_star, language_terminal]
    exact Language.mem_kstar.mpr ⟨[['a'], ['a']], rfl, fun u hu => show u = ['a'] by simpa using hu⟩

end Compiler

end RegularLanguages
