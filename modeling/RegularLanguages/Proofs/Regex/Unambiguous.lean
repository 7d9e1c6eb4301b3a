import RegularLanguages.Proofs.Regex.Follow

/-!
# Reading a regex in one way

Over a harmless alphabet, two layered regexes with the same text are the same. To prove it, the text
is taken with something behind it that stops the layer. Then the regex in front is determined, and so
is what stands behind (`Reads`).

## Mechanism

At every layer a regex is one of the next stronger layer, its operand, with a tail or without one
(`attach`). Only a union can have no operand (`bare`). By induction the operand is determined. A tail
goes on the layer, what stands behind the regex does not, so the two cannot be taken for each other;
and two tails of one layer differ in their first character or are read in one way themselves.
-/

namespace RegularLanguages.Regex

variable {S : Alphabet} {l : Layer} {x a : Regex} {b : Option Regex} {u v : List Char}

/-! ## Operands and tails -/

/-- What can stand behind the operand of a layer. -/
inductive Tail where
  | star
  | plus
  | count (text : String)
  | mark
  | next (b : Regex)
  | bar (b : Regex)

/-- The text of a tail. -/
def Tail.text : Tail → List Char
  | star => ['*']
  | plus => ['+']
  | count text => '^' :: text.toList
  | mark => ['?']
  | next b => b.toString.toList
  | bar b => '|' :: b.toString.toList

/-- The operand with the tail. -/
def Tail.wrap (a : Regex) : Tail → Regex
  | star => .star a
  | plus => .plus a
  | count text => .repetition a (.digits text)
  | mark => .option a
  | next b => .concatenation a b
  | bar b => .union a b

/-- The operand with the tail, if there is one. -/
def attach (a : Regex) : Option Tail → Regex
  | none => a
  | some t => t.wrap a

/-- A union without an operand, with the rest behind the bar, if there is one. -/
def bare : Option Regex → Regex
  | none => .empty
  | some b => .emptyUnion b

/-- The text of the tail, if there is one. -/
def tailText : Option Tail → List Char
  | none => []
  | some t => t.text

theorem toList_attach (a : Regex) (t : Option Tail) :
    (attach a t).toString.toList = a.toString.toList ++ tailText t := by
  cases t with
  | none => simp [attach, tailText]
  | some t => cases t <;> simp [attach, tailText, Tail.wrap, Tail.text, Regex.toString]

theorem toList_bare (b : Option Regex) :
    (bare b).toString.toList = tailText (b.map Tail.bar) := by
  cases b <;> simp [bare, tailText, Tail.text, Regex.toString]

/-- The layer of the operand. -/
def Layer.below : Layer → Layer
  | .union => .concatenation
  | .concatenation => .option
  | .option => .repetition
  | .repetition | .atom => .atom

theorem Layer.height_below_le (l : Layer) : l.below.height ≤ l.height := by
  cases l <;> decide

theorem Layer.one_le_height (hl : l ≠ .atom) : 1 ≤ l.height := by
  cases l with
  | atom => exact absurd rfl hl
  | repetition | option | concatenation | union => decide

/-- The tail makes a regex of the layer. -/
inductive Tail.Fits (S : Alphabet) : Layer → Tail → Prop
  | star : Fits S .repetition .star
  | plus : Fits S .repetition .plus
  | count {text : String} (h : IsDecimal text) : Fits S .repetition (.count text)
  | mark : Fits S .option .mark
  | next {b : Regex} (hb : Layered S .concatenation b) : Fits S .concatenation (.next b)
  | bar {b : Regex} (hb : Layered S .union b) : Fits S .union (.bar b)

/-- A regex of a layer is an operand with a tail or without one, or a union without an operand. -/
theorem Layered.exists_attach (h : Layered S l x) (hl : l ≠ .atom) :
    (∃ a t, Layered S l.below a ∧ (∀ s ∈ t, Tail.Fits S l s) ∧ x = attach a t) ∨
      l = .union ∧ ∃ b, (∀ s ∈ b.map Tail.bar, Tail.Fits S .union s) ∧ x = bare b := by
  cases h with
  | union ha hb => exact Or.inl ⟨_, some (.bar _), ha, by simpa using .bar hb, rfl⟩
  | emptyUnion hb => exact Or.inr ⟨rfl, some _, by simpa using .bar hb, rfl⟩
  | empty => exact Or.inr ⟨rfl, none, by simp, rfl⟩
  | concatenation ha hb => exact Or.inl ⟨_, some (.next _), ha, by simpa using .next hb, rfl⟩
  | option ha => exact Or.inl ⟨_, some .mark, ha, by simpa using .mark, rfl⟩
  | star ha => exact Or.inl ⟨_, some .star, ha, by simpa using .star, rfl⟩
  | plus ha => exact Or.inl ⟨_, some .plus, ha, by simpa using .plus, rfl⟩
  | repetition ha hcount =>
    exact Or.inl ⟨_, some (.count _), ha, by simpa using .count hcount, rfl⟩
  | ofConcatenation ha | ofOption ha | ofRepetition ha | ofAtom ha =>
    exact Or.inl ⟨_, none, ha, by simp, rfl⟩
  | paren | terminal => exact absurd rfl hl

/-! ## Tails and what stands around them -/

theorem startsWithDigit_of_isDecimal {text : String} (h : IsDecimal text) :
    startsWithDigit (text.toList ++ u) = true := by
  obtain ⟨hne, hdigits⟩ := h
  cases hcs : text.toList with
  | nil => exact absurd hcs hne
  | cons c rest => exact hdigits c (hcs ▸ List.mem_cons_self)

/-- A tail goes on its layer. -/
theorem Tail.Fits.extends_layer {t : Tail} (h : t.Fits S l) (hS : Harmless S)
    (hu : startsWithDigit u = false) : Extends S l (t.text ++ u) := by
  cases h with
  | star => exact Or.inl rfl
  | plus => exact Or.inr (Or.inl rfl)
  | count h => exact Or.inr (Or.inr (Or.inr ⟨rfl, startsWithDigit_of_isDecimal h⟩))
  | mark => rfl
  | next hb => exact (hb.begins hS (by decide) hu).extends_concatenation
  | bar hb => rfl

/-- A tail stops the operand. -/
theorem Tail.Fits.stops {t : Tail} (h : t.Fits S l) (hS : Harmless S)
    (hu : startsWithDigit u = false) : Stops S l.below (t.text ++ u) := by
  cases h with
  | star | plus | count => exact stops_atom
  | mark => exact stops_mark
  | next hb => exact (hb.begins hS (by decide) hu).stops hS
  | bar hb => exact hS.stops_bar

/-- So does what stands behind the regex, if there is no tail. -/
theorem stops_tailText {t : Option Tail} (hS : Harmless S) (hl : l ≠ .atom)
    (ht : ∀ s ∈ t, s.Fits S l) (hu : Stops S l u) : Stops S l.below (tailText t ++ u) := by
  cases t with
  | none => exact hu.mono l.height_below_le
  | some s => exact (ht s rfl).stops hS (hu.startsWithDigit (Layer.one_le_height hl))

/-- A union with an operand begins with an atom. -/
theorem begins_attach {t : Option Tail} (hS : Harmless S) (ha : Layered S .concatenation a)
    (ht : ∀ s ∈ t, s.Fits S .union) (hu : Stops S .union u) :
    Begins S ((attach a t).toString.toList ++ u) := by
  have hstops := stops_tailText hS (by decide) ht hu
  rw [toList_attach, List.append_assoc]
  exact ha.begins hS (by decide) (hstops.startsWithDigit (by decide))

/-- A union without an operand does not. -/
theorem not_begins_bare (hS : Harmless S) (hb : ∀ s ∈ b.map Tail.bar, Tail.Fits S .union s)
    (hu : Stops S .union u) : ¬ Begins S ((bare b).toString.toList ++ u) := by
  intro hbegins
  rw [toList_bare] at hbegins
  exact (stops_tailText hS (by decide) hb hu).not_extends hbegins.extends_concatenation

/-! ## Reading -/

/-- The regex is determined by any text that begins with it, if what stands behind stops the layer;
so is what stands behind. -/
def Reads (S : Alphabet) (l : Layer) (x : Regex) : Prop :=
  ∀ y u v, Layered S l y → Stops S l u → Stops S l v →
    x.toString.toList ++ u = y.toString.toList ++ v → x = y ∧ u = v

/-- The regex in the tail is determined, if there is one. -/
def Tail.Reads (S : Alphabet) (l : Layer) : Tail → Prop
  | next b | bar b => Regex.Reads S l b
  | _ => True

/-- A row of digits ends where no digit follows. -/
theorem append_inj_of_digits {ds es : List Char} (hds : ∀ c ∈ ds, c.isDigit = true)
    (hes : ∀ c ∈ es, c.isDigit = true) (hu : startsWithDigit u = false)
    (hv : startsWithDigit v = false) (h : ds ++ u = es ++ v) : ds = es ∧ u = v := by
  induction ds generalizing es with
  | nil =>
    cases es with
    | nil => exact ⟨rfl, h⟩
    | cons e es =>
      obtain rfl : u = e :: (es ++ v) := h
      rw [startsWithDigit, hes e List.mem_cons_self] at hu
      cases hu
  | cons d ds ih =>
    obtain ⟨hd, hds⟩ := List.forall_mem_cons.mp hds
    cases es with
    | nil =>
      obtain rfl : d :: (ds ++ u) = v := h
      rw [startsWithDigit, hd] at hv
      cases hv
    | cons e es =>
      have hes' := (List.forall_mem_cons.mp hes).2
      obtain ⟨rfl, hrest⟩ := List.cons.inj h
      obtain ⟨rfl, rfl⟩ := ih hds hes' hrest
      exact ⟨rfl, rfl⟩

/-- **Two tails of one layer with the same text are the same.** -/
theorem Tail.Fits.unique {t t' : Tail} (h : t.Fits S l) (h' : t'.Fits S l) (hreads : t.Reads S l)
    (hu : Stops S l u) (hv : Stops S l v) (heq : t.text ++ u = t'.text ++ v) : t = t' ∧ u = v := by
  cases h with
  | star | plus => cases h' <;> simp_all [Tail.text]
  | count h =>
    cases h' with
    | star | plus => simp [Tail.text] at heq
    | count h' =>
      have hdigits := append_inj_of_digits h.2 h'.2 (hu.startsWithDigit (by decide))
        (hv.startsWithDigit (by decide)) (List.cons.inj heq).2
      rw [String.toList_inj.mp hdigits.1]
      exact ⟨rfl, hdigits.2⟩
  | mark =>
    cases h'
    exact ⟨rfl, (List.cons.inj heq).2⟩
  | next hb =>
    cases h' with
    | next hb' =>
      obtain ⟨rfl, rfl⟩ := hreads _ u v hb' hu hv heq
      exact ⟨rfl, rfl⟩
  | bar hb =>
    cases h' with
    | bar hb' =>
      obtain ⟨rfl, rfl⟩ := hreads _ u v hb' hu hv (List.cons.inj heq).2
      exact ⟨rfl, rfl⟩

/-- The same where a tail may be missing: a tail goes on the layer, and what is behind does not. -/
theorem tail_unique {t t' : Option Tail} (hS : Harmless S) (hl : l ≠ .atom)
    (ht : ∀ s ∈ t, s.Fits S l ∧ s.Reads S l) (ht' : ∀ s ∈ t', s.Fits S l) (hu : Stops S l u)
    (hv : Stops S l v) (heq : tailText t ++ u = tailText t' ++ v) : t = t' ∧ u = v := by
  have hheight := Layer.one_le_height hl
  cases t with
  | none =>
    cases t' with
    | none => exact ⟨rfl, heq⟩
    | some s' =>
      obtain rfl : u = s'.text ++ v := heq
      exact absurd ((ht' s' rfl).extends_layer hS (hv.startsWithDigit hheight)) hu.not_extends
  | some s =>
    obtain ⟨hfits, hreads⟩ := ht s rfl
    cases t' with
    | none =>
      obtain rfl : s.text ++ u = v := heq
      exact absurd (hfits.extends_layer hS (hu.startsWithDigit hheight)) hv.not_extends
    | some s' =>
      obtain ⟨rfl, rfl⟩ := hfits.unique (ht' s' rfl) hreads hu hv heq
      exact ⟨rfl, rfl⟩

/-- **An operand with a tail is determined** if the operand is, and what is in the tail. -/
theorem reads_attach {t : Option Tail} (hS : Harmless S) (hl : l ≠ .atom)
    (ha : Layered S l.below a) (hreads : Reads S l.below a)
    (ht : ∀ s ∈ t, s.Fits S l ∧ s.Reads S l) : Reads S l (attach a t) := by
  intro y u v hy hu hv heq
  have hfits : ∀ s ∈ t, s.Fits S l := fun s hs => (ht s hs).1
  rcases hy.exists_attach hl with ⟨a', t', ha', ht', rfl⟩ | ⟨rfl, b, hb, rfl⟩
  · rw [toList_attach, toList_attach, List.append_assoc, List.append_assoc] at heq
    obtain ⟨rfl, htails⟩ := hreads a' _ _ ha' (stops_tailText hS hl hfits hu)
      (stops_tailText hS hl ht' hv) heq
    obtain ⟨rfl, rfl⟩ := tail_unique hS hl ht ht' hu hv htails
    exact ⟨rfl, rfl⟩
  · have hbegins := begins_attach hS ha hfits hu
    rw [heq] at hbegins
    exact absurd hbegins (not_begins_bare hS hb hv)

/-- A union without an operand is determined if what is behind the bar is. -/
theorem reads_bare (hS : Harmless S)
    (hb : ∀ s ∈ b.map Tail.bar, Tail.Fits S .union s ∧ s.Reads S .union) :
    Reads S .union (bare b) := by
  intro y u v hy hu hv heq
  have hfits : ∀ s ∈ b.map Tail.bar, Tail.Fits S .union s := fun s hs => (hb s hs).1
  rcases hy.exists_attach (by decide) with ⟨a', t', ha', ht', rfl⟩ | ⟨-, b', hb', rfl⟩
  · have hbegins := begins_attach hS ha' ht' hv
    rw [← heq] at hbegins
    exact absurd hbegins (not_begins_bare hS hfits hu)
  · rw [toList_bare, toList_bare] at heq
    obtain ⟨hsame, rfl⟩ := tail_unique hS (by decide) hb hb' hu hv heq
    have hinjective : Function.Injective Tail.bar := fun _ _ h => Tail.bar.inj h
    rw [Option.map_injective hinjective hsame]
    exact ⟨rfl, rfl⟩

/-- **Over a harmless alphabet every layered regex is determined by its text.** -/
theorem Layered.reads (h : Layered S l x) (hS : Harmless S) : Reads S l x := by
  induction h with
  | @union a b ha hb iha ihb =>
    exact reads_attach (t := some (.bar b)) hS (by decide) ha iha (by simpa using ⟨.bar hb, ihb⟩)
  | @emptyUnion b hb ih => exact reads_bare (b := some b) hS (by simpa using ⟨.bar hb, ih⟩)
  | empty => exact reads_bare (b := none) hS (by simp)
  | @concatenation a b ha hb iha ihb =>
    exact reads_attach (t := some (.next b)) hS (by decide) ha iha (by simpa using ⟨.next hb, ihb⟩)
  | option ha ih =>
    exact reads_attach (t := some .mark) hS (by decide) ha ih (by simpa using ⟨.mark, trivial⟩)
  | star ha ih =>
    exact reads_attach (t := some .star) hS (by decide) ha ih (by simpa using ⟨.star, trivial⟩)
  | plus ha ih =>
    exact reads_attach (t := some .plus) hS (by decide) ha ih (by simpa using ⟨.plus, trivial⟩)
  | @repetition a count ha hcount ih =>
    exact reads_attach (t := some (.count count)) hS (by decide) ha ih
      (by simpa using ⟨.count hcount, trivial⟩)
  | ofConcatenation ha ih | ofOption ha ih | ofRepetition ha ih | ofAtom ha ih =>
    exact reads_attach (t := none) hS (by decide) ha ih (by simp)
  | @paren a ha ih =>
    intro y u v hy hu hv heq
    cases hy with
    | @paren b hb =>
      have hinner : a.toString.toList ++ ')' :: u = b.toString.toList ++ ')' :: v := by
        simpa [Regex.toString] using heq
      obtain ⟨rfl, hrest⟩ := ih b _ _ hb hS.stops_close hS.stops_close hinner
      exact ⟨rfl, (List.cons.inj hrest).2⟩
    | @terminal c hc =>
      obtain ⟨rfl, -⟩ : '(' = c ∧ _ := by simpa [Regex.toString] using heq
      exact absurd hc (hS.not_mem (by decide) (by decide))
  | @terminal c hc =>
    intro y u v hy hu hv heq
    cases hy with
    | paren hb =>
      obtain ⟨rfl, -⟩ : c = '(' ∧ _ := by simpa [Regex.toString] using heq
      exact absurd hc (hS.not_mem (by decide) (by decide))
    | terminal hc' => simpa [Regex.toString] using heq

/-- Two layered regexes with the same text are the same. -/
theorem Layered.eq_of_toString_eq {y : Regex} (hx : Layered S .union x) (hy : Layered S .union y)
    (hS : Harmless S) (h : toString x = toString y) : x = y := by
  have heq : x.toString.toList ++ [] = y.toString.toList ++ [] := congrArg (·.toList ++ []) h
  exact (hx.reads hS y [] [] hy stops_nil stops_nil heq).1

end RegularLanguages.Regex
