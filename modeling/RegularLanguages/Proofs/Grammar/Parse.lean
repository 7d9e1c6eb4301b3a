import RegularLanguages.Proofs.Grammar.Saturation

/-!
# The parser finds every tree

The spans are filled shortest first. So when a span is filled, the spans within it are complete, and
filling it completes it as well (`complete_saturate`). At the end the cell of the whole word lists the
derivation trees of the word, each once.
-/

namespace RegularLanguages

namespace Chart

variable {g : Grammar} {word : Array Char} {chart : Chart} {i j : Nat}

/-! ## The order of the spans -/

theorem mem_spans {length : Nat} {span : Nat × Nat} :
    span ∈ spans length ↔ span.1 ≤ span.2 ∧ span.2 ≤ length := by
  obtain ⟨a, b⟩ := span
  simp only [spans, List.mem_flatMap, List.mem_map, List.mem_range, Prod.mk.injEq]
  constructor
  · rintro ⟨width, hwidth, i, hi, rfl, rfl⟩
    omega
  · rintro ⟨hab, hb⟩
    exact ⟨b - a, by omega, a, by omega, rfl, by omega⟩

/-- No span is longer than one behind it. -/
theorem pairwise_spans (length : Nat) :
    (spans length).Pairwise fun s t => s.2 - s.1 ≤ t.2 - t.1 := by
  rw [spans, List.pairwise_flatMap]
  constructor
  · intro width _
    rw [List.pairwise_map]
    exact List.Pairwise.imp (fun {i i'} _ => by omega) List.pairwise_lt_range
  · refine List.pairwise_lt_range.imp fun {width width'} hlt s hs t ht => ?_
    obtain ⟨i, -, rfl⟩ := List.mem_map.mp hs
    obtain ⟨i', -, rfl⟩ := List.mem_map.mp ht
    simp only
    omega

/-! ## The whole chart -/

/-- A sound chart without repetitions. -/
structure Valid (g : Grammar) (word : Array Char) (chart : Chart) : Prop where
  sound : Sound g word chart
  distinct : chart.Distinct

theorem Valid.empty (g : Grammar) (word : Array Char) : Valid g word ∅ := by
  have hcell : ∀ i j id, (∅ : Chart).cell i j id = [] := by
    intro i j id
    exact Std.HashMap.getD_empty
  refine ⟨fun i j id t ht => ?_, fun i j id => ?_⟩
  · rw [hcell] at ht
    cases ht
  · rw [hcell]
    exact List.nodup_nil

theorem Valid.saturate (h : Valid g word chart) (hij : i ≤ j) (n : Nat) :
    Valid g word (saturate g word i j n chart) :=
  saturate_induction (fun _ h => ⟨h.sound.pass hij, h.distinct.pass⟩) n h

theorem grows_saturate (n : Nat) : Grows chart (saturate g word i j n chart) :=
  saturate_induction (fun _ h i j id t ht => grows_pass i j id t (h i j id t ht)) n
    fun _ _ _ _ ht => ht

/-- The state of the chart when the spans in `todo` are still to be filled: no span in `todo` is
longer than one behind it, and all other spans are complete. -/
structure Ready (g : Grammar) (word : Array Char) (todo : List (Nat × Nat)) (chart : Chart) :
    Prop where
  ordered : todo.Pairwise fun s t => s.2 - s.1 ≤ t.2 - t.1
  inWord : ∀ span ∈ todo, span.1 ≤ span.2 ∧ span.2 ≤ word.size
  valid : Valid g word chart
  done : ∀ a b, a ≤ b → b ≤ word.size → (a, b) ∉ todo → Complete g word chart a b

theorem ready_spans (g : Grammar) (word : Array Char) : Ready g word (spans word.size) ∅ :=
  ⟨pairwise_spans _, fun _ => mem_spans.mp, .empty g word,
    fun _ _ hab hb hmem => absurd (mem_spans.mpr ⟨hab, hb⟩) hmem⟩

/-- When a span is next, the shorter spans within it are complete. -/
theorem Ready.completeWithin {todo : List (Nat × Nat)} (h : Ready g word ((i, j) :: todo) chart) :
    CompleteWithin g word chart i j := by
  obtain ⟨hfirst, -⟩ := List.pairwise_cons.mp h.ordered
  obtain ⟨hspan, -⟩ := List.forall_mem_cons.mp h.inWord
  intro a b ha hb hproper id t ht hspans
  have hab := hspans.le
  refine h.done a b hab (by omega) (fun hmem => ?_) id t ht hspans
  rcases List.mem_cons.mp hmem with heq | hmem
  · obtain ⟨rfl, rfl⟩ := Prod.mk.inj heq
    rcases hproper with hne | hne
    · exact hne rfl
    · exact hne rfl
  · -- a span within this one is shorter, so it is not still to be filled
    have hle := hfirst _ hmem
    simp only at hle hspan
    omega

/-- Filling the next span leaves the others to be filled. -/
theorem Ready.saturate {todo : List (Nat × Nat)} (h : Ready g word ((i, j) :: todo) chart)
    (hg : g.Checked) : Ready g word todo (saturate g word i j (passBound g) chart) := by
  obtain ⟨-, hordered⟩ := List.pairwise_cons.mp h.ordered
  obtain ⟨hspan, hothers⟩ := List.forall_mem_cons.mp h.inWord
  refine ⟨hordered, hothers, h.valid.saturate hspan.1 _, fun a b hab hb hmem => ?_⟩
  by_cases heq : (a, b) = (i, j)
  · obtain ⟨rfl, rfl⟩ := Prod.mk.inj heq
    exact complete_saturate hg hspan.1 h.valid.sound h.completeWithin
  · have hnot : (a, b) ∉ (i, j) :: todo := by
      rw [List.mem_cons, not_or]
      exact ⟨heq, hmem⟩
    exact (h.done a b hab hb hnot).mono (grows_saturate _)

theorem Ready.foldl {todo : List (Nat × Nat)} (h : Ready g word todo chart) (hg : g.Checked) :
    Ready g word [] (todo.foldl
      (fun chart span => Chart.saturate g word span.1 span.2 (passBound g) chart) chart) := by
  induction todo generalizing chart with
  | nil => exact h
  | cons span todo ih =>
    obtain ⟨i, j⟩ := span
    exact ih (h.saturate hg)

/-- **The chart of a word is valid and complete.** -/
theorem complete_ofWord (hg : g.Checked) (word : Array Char) :
    Valid g word (ofWord g word) ∧
      ∀ a b, a ≤ b → b ≤ word.size → Complete g word (ofWord g word) a b := by
  have hready := (ready_spans g word).foldl hg
  exact ⟨hready.valid, fun a b hab hb => hready.done a b hab hb List.not_mem_nil⟩

end Chart

/-! ## Parsing -/

namespace Grammar

variable {g : Grammar}

theorem nodup_parse_of_checked (hg : g.Checked) (input : String) : (g.parse input).Nodup :=
  (Chart.complete_ofWord hg _).1.distinct _ _ _

/-- The parser returns the derivation trees of the input. -/
theorem mem_parse_of_faithful (hg : g.Checked) (hf : g.Faithful) {input : String} {t : ParseTree} :
    t ∈ g.parse input ↔
      Derivation g.rules (.nonterminal g.start) t ∧ t.leaves = input.toList := by
  obtain ⟨hvalid, hcomplete⟩ := Chart.complete_ofWord hg input.toList.toArray
  have hstart := hf.derives_iff t (.nonterminal hf.start)
  rw [parse, ← hstart]
  constructor
  · intro ht
    obtain ⟨hderives, hspan⟩ := hvalid.sound _ _ _ t ht
    exact ⟨hderives, Chart.spans_whole.mp hspan⟩
  · rintro ⟨hderives, hleaves⟩
    exact hcomplete 0 _ (Nat.zero_le _) (Nat.le_refl _) 0 t hderives
      (Chart.spans_whole.mpr hleaves)

end Grammar

/-- **The parser is sound, complete and free of repetitions.** The trees that a grammar which passed
its checks gives for a word are the derivation trees from the start symbol whose leaves spell the
word, and each is listed once. -/
theorem Draft.parse_of_build {d : Draft} {g : Grammar} (h : d.build = .ok g) (input : String) :
    (g.parse input).Nodup ∧ ∀ t, t ∈ g.parse input ↔
      Derivation g.rules (.nonterminal g.start) t ∧ t.leaves = input.toList := by
  have hchecked := checked_of_build h
  have hfaithful := faithful_of_build h
  exact ⟨Grammar.nodup_parse_of_checked hchecked input,
    fun t => Grammar.mem_parse_of_faithful hchecked hfaithful⟩

/-- The case of the grammar of the words over one letter, and a word of two letters. -/
theorem Draft.parse_of_build_of_letters :
    ∃ g, (Draft.mk "S" [⟨"S", [], .empty⟩, ⟨"S", [.terminal 'a', .nonterminal "S"], .union⟩]
        []).build = .ok g ∧ (g.parse "aa").Nodup ∧ ∀ t, t ∈ g.parse "aa" ↔
          Derivation g.rules (.nonterminal g.start) t ∧ t.leaves = "aa".toList := by
  have hbuild : (Draft.mk "S" [⟨"S", [], .empty⟩,
      ⟨"S", [.terminal 'a', .nonterminal "S"], .union⟩] []).build =
      .ok ⟨"S", [⟨"S", [], .empty⟩, ⟨"S", [.terminal 'a', .nonterminal "S"], .union⟩], ["S"],
        [⟨0, .empty, 0, []⟩, ⟨1, .union, 0, [.terminal 'a', .nonterminal 0]⟩], [0]⟩ := by cbv
  exact ⟨_, hbuild, parse_of_build hbuild "aa"⟩

end RegularLanguages
