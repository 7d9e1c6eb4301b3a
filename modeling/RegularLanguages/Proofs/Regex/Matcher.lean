import Mathlib.Computability.Language

/-!
# Matching a word by trying all cuts

A matcher is asked about a whole word. For two matchers one after the other it tries every place to
cut the word in two. For any number of rounds it cuts off one round after the other, and a round takes
one character at least, since else it would never come to an end.

`Decides` ties a matcher to a language, and has one lemma for each way to combine matchers. Leaving out
the empty rounds loses no word, because they add nothing to it (`Decides.star`).
-/

namespace RegularLanguages

open Computability

namespace Matcher

/-- Whether the word can be cut in two parts, one for each matcher. -/
def cuts (first second : List Char → Bool) (w : List Char) : Bool :=
  (List.range (w.length + 1)).any fun k => first (w.take k) && second (w.drop k)

/-- Whether the word can be cut in any number of rounds, none of them empty. -/
def rounds (round : List Char → Bool) : List Char → Bool
  | [] => true
  | c :: rest => (List.range (rest.length + 1)).any fun k =>
      round (c :: rest.take k) && rounds round (rest.drop k)
termination_by w => w.length
decreasing_by
  rw [List.length_drop, List.length_cons]
  omega

/-- Whether the word can be cut in exactly so many rounds. -/
def copies (round : List Char → Bool) : Nat → List Char → Bool
  | 0 => List.isEmpty
  | n + 1 => cuts round (copies round n)

/-- The matcher answers yes for the words of the language, and no for all others. -/
def Decides (f : List Char → Bool) (L : Language Char) : Prop := ∀ w, f w = true ↔ w ∈ L

variable {f g : List Char → Bool} {L M : Language Char}

theorem decides_isEmpty : Decides List.isEmpty 1 := fun _ => List.isEmpty_iff

theorem Decides.cuts (hf : Decides f L) (hg : Decides g M) : Decides (cuts f g) (L * M) := by
  intro w
  simp only [Matcher.cuts, List.any_eq_true, List.mem_range, Bool.and_eq_true, hf _, hg _,
    Language.mem_mul]
  constructor
  · rintro ⟨k, -, hfirst, hsecond⟩
    exact ⟨_, hfirst, _, hsecond, List.take_append_drop k w⟩
  · rintro ⟨u, hu, v, hv, rfl⟩
    exact ⟨u.length, by rw [List.length_append]; omega, by rwa [List.take_left], by rwa [List.drop_left]⟩

theorem mem_kstar_of_rounds (hf : Decides f L) {w : List Char} (h : rounds f w = true) : w ∈ L∗ := by
  fun_induction rounds f w with
  | case1 => exact Language.nil_mem_kstar L
  | case2 c rest ih =>
    obtain ⟨k, -, hk⟩ := List.any_eq_true.mp h
    obtain ⟨hround, hrest⟩ := Bool.and_eq_true_iff.mp hk
    have hmem : (c :: rest.take k) ++ rest.drop k ∈ L * L∗ :=
      Language.append_mem_mul ((hf _).mp hround) (ih k hrest)
    rw [List.cons_append, List.take_append_drop] at hmem
    exact Set.mem_of_mem_of_subset hmem (mul_kstar_le_kstar (a := L))

theorem rounds_flatten (hf : Decides f L) {words : List (List Char)}
    (hwords : ∀ u ∈ words, u ∈ L ∧ u ≠ []) : rounds f words.flatten = true := by
  induction words with
  | nil => rw [List.flatten_nil, rounds]
  | cons u words ih =>
    obtain ⟨⟨hu, hne⟩, hrest⟩ := List.forall_mem_cons.mp hwords
    obtain ⟨c, u, rfl⟩ := List.exists_cons_of_ne_nil hne
    rw [List.flatten_cons, List.cons_append, rounds, List.any_eq_true]
    refine ⟨u.length, List.mem_range.mpr (by rw [List.length_append]; omega), Bool.and_eq_true_iff.mpr ⟨?_, ?_⟩⟩
    · rw [List.take_left]
      exact (hf _).mpr hu
    · rw [List.drop_left]
      exact ih hrest

/-- **Rounds that are not empty are enough.** -/
theorem Decides.star (hf : Decides f L) : Decides (rounds f) L∗ := by
  intro w
  refine ⟨mem_kstar_of_rounds hf, fun hw => ?_⟩
  obtain ⟨words, rfl, hwords⟩ := Language.mem_kstar_iff_exists_nonempty.mp hw
  exact rounds_flatten hf hwords

theorem Decides.power (hf : Decides f L) (n : Nat) : Decides (copies f n) (L ^ n) := by
  induction n with
  | zero =>
    rw [pow_zero]
    exact decides_isEmpty
  | succ n ih =>
    rw [pow_succ']
    exact hf.cuts ih

end Matcher

end RegularLanguages
