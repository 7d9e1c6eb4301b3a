import RegularLanguages.Proofs.Automaton.Copy
import RegularLanguages.Proofs.Diagram.Validity

/-!
# A diagram as a graph

The automaton of a valid diagram shows the diagram and nothing else: a state for each declared name, at
its place, and for each name the edges of the arrows that leave it, in the order in which they are drawn
and each once. Two arrows give the same edge if they lead to the same name and stand for the same
character, however that is spelled.

A word is accepted if some route along the arrows, from the start to an accepting name, spells it. A
route carries the texts as they are written on the arrows. So what is read is the canonical form of these
texts, one behind the other.
-/

namespace RegularLanguages

open Spelling (Short char?)

namespace Diagram

variable {d : Diagram} {A : Alphabet} {m : Automaton} {name target : String} {texts : List String}

/-- A row of arrows from one name to another, and the texts on them. -/
inductive Route (d : Diagram) : String → List String → String → Prop
  | nil (name : String) : Route d name [] name
  | cons {a : Arrow} {texts : List String} {target : String} (hmem : a ∈ d.arrows)
      (hrest : Route d a.target texts target) : Route d a.source (a.symbol :: texts) target

/-- The edge of an arrow. -/
def edge (d : Diagram) (A : Alphabet) (a : Arrow) : Edge :=
  ⟨labelOf A a.symbol, d.states.idxOf a.target⟩

/-- The automaton has the names of the diagram as its states and the arrows as its edges, and it accepts
what the routes to accepting names spell. -/
structure Shows (d : Diagram) (m : Automaton) : Prop where
  numStates_eq : m.numStates = d.states.length
  start_eq : d.states[m.start]? = some d.start
  accepting_iff : ∀ q, m.accepting.contains q = true ↔ ∃ name ∈ d.accepting, d.states[q]? = some name
  mem_alphabet : ∀ c, c ∈ m.alphabet.symbols ↔
    ∃ s ∈ d.symbolsInUse, (Spelling.normalise s).toList = [c]
  /-- The edge of an arrow reads the character of the arrow, if there is one, and leads to its target. -/
  edge_reads : ∀ a ∈ d.arrows, (d.edge m.alphabet a).label.char? m.alphabet = char? a.symbol ∧
    ((d.edge m.alphabet a).label = .epsilon ↔ Spelling.normalise a.symbol = "") ∧
    d.states[(d.edge m.alphabet a).target]? = some a.target
  /-- The edges of a name are those of its arrows, in the order of their first occurrences. -/
  edgesFrom_eq : ∀ q name, d.states[q]? = some name →
    m.edgesFrom q = ((d.arrows.filter (·.source = name)).map (d.edge m.alphabet)).eraseDups
  accepts_iff : ∀ w, m.accepts w = true ↔
    ∃ texts, ∃ name ∈ d.accepting, d.Route d.start texts name ∧
      Spelling.normalise (String.join texts) = w

/-! ## Drawing arrows -/

/-- Adding edges one after the other, to none, keeps the first of each. -/
theorem foldl_insertEdge_eq_eraseDups (edges : List Edge) :
    edges.foldl Automaton.insertEdge [] = edges.eraseDups := by
  induction edges using List.reverseRecOn with
  | nil => rfl
  | append_singleton edges e ih =>
    rw [List.foldl_append, List.foldl_cons, List.foldl_nil, ih, List.eraseDups_append,
      Automaton.insertEdge]
    by_cases he : e ∈ edges
    · rw [if_pos (List.mem_eraseDups.mpr he)]
      simp [List.removeAll, he]
    · rw [if_neg (mt List.mem_eraseDups.mp he)]
      simp [List.removeAll, he, List.eraseDups_cons]

/-- Arrows change nothing but edges. -/
theorem foldl_draw (d : Diagram) (A : Alphabet) (arrows : List Arrow) (m : Automaton) :
    (arrows.foldl (d.draw A) m).alphabet = m.alphabet ∧
      (arrows.foldl (d.draw A) m).start = m.start ∧
      (arrows.foldl (d.draw A) m).accepting = m.accepting ∧
      (arrows.foldl (d.draw A) m).numStates = m.numStates := by
  induction arrows generalizing m with
  | nil => exact ⟨rfl, rfl, rfl, rfl⟩
  | cons a rest ih =>
    obtain ⟨halphabet, hstart, haccepting, hnum⟩ := ih (d.draw A m a)
    exact ⟨halphabet, hstart, haccepting, hnum.trans (Automaton.numStates_addTransition m _ _ _)⟩

theorem edgesFrom_foldl_draw (d : Diagram) (A : Alphabet) (arrows : List Arrow) {m : Automaton}
    {q : Nat} (hq : q < m.numStates) :
    (arrows.foldl (d.draw A) m).edgesFrom q =
      ((arrows.filter fun a => d.states.idxOf a.source = q).map (d.edge A)).foldl
        Automaton.insertEdge (m.edgesFrom q) := by
  induction arrows generalizing m with
  | nil => rfl
  | cons a rest ih =>
    have hdrawn := Automaton.edgesFrom_addTransition m (d.states.idxOf a.source)
      (labelOf A a.symbol) (d.states.idxOf a.target) q
    have hlt : q < (d.draw A m a).numStates := by
      rwa [draw, Automaton.numStates_addTransition]
    rw [List.foldl_cons, ih hlt, draw, hdrawn]
    by_cases hsource : d.states.idxOf a.source = q
    · rw [if_pos ⟨hsource, hq⟩, List.filter_cons_of_pos (by simpa using hsource), List.map_cons,
        List.foldl_cons]
      rfl
    · rw [if_neg fun h => hsource h.1, List.filter_cons_of_neg (by simpa using hsource)]

/-! ## The automaton of a valid diagram -/

theorem alphabet_drawn (d : Diagram) : d.drawn.alphabet = d.alphabetInUse := by
  rw [drawn, (foldl_draw d _ _ _).1]
  exact alphabet_addAllAccepting_bare _ _ _ _

theorem start_drawn (d : Diagram) : d.drawn.start = d.states.idxOf d.start := by
  rw [drawn, (foldl_draw d _ _ _).2.1, Automaton.start_addAllAccepting]
  rfl

theorem contains_accepting_drawn (d : Diagram) {q : Nat} :
    d.drawn.accepting.contains q = true ↔ ∃ name ∈ d.accepting, d.states.idxOf name = q := by
  have hnone : (bare d.alphabetInUse d.states.length (d.states.idxOf d.start)).accepting = ∅ :=
    Automaton.accepting_addStates _ _
  rw [drawn, (foldl_draw d _ _ _).2.2.1, Automaton.accepting_addAllAccepting, hnone]
  simp

theorem edgesFrom_drawn (h : d.Valid) {q : Nat} (hq : q < d.states.length) :
    d.drawn.edgesFrom q =
      ((d.arrows.filter fun a => d.states.idxOf a.source = q).map
        (d.edge d.alphabetInUse)).eraseDups := by
  have hnum : ((bare d.alphabetInUse d.states.length (d.states.idxOf d.start)).addAllAccepting
      (d.accepting.map d.states.idxOf)).numStates = d.states.length := by
    rw [Automaton.numStates_addAllAccepting]
    exact (Fits.bare _ (List.idxOf_lt_length_of_mem h.start_mem)).numStates_eq
  have hnone : (bare d.alphabetInUse d.states.length (d.states.idxOf d.start)).edgesFrom q = [] := by
    show ((Automaton.ofStart _).addStates _).edgesFrom q = []
    rw [Automaton.edgesFrom_addStates, Automaton.edgesFrom_ofStart]
  rw [drawn, edgesFrom_foldl_draw d _ _ (hnum.symm ▸ hq), Automaton.edgesFrom_addAllAccepting, hnone,
    foldl_insertEdge_eq_eraseDups]

theorem Valid.fits_drawn (h : d.Valid) : d.Fits d.drawn :=
  fits_toAutomaton (toAutomaton_eq_ok_iff.mpr ⟨h, rfl⟩)

/-- The edges of a state are those of the arrows that leave its name. -/
theorem Valid.mem_edgesFrom_drawn (h : d.Valid) {q : Nat} {e : Edge} :
    e ∈ d.drawn.edgesFrom q ↔
      ∃ a ∈ d.arrows, d.states.idxOf a.source = q ∧ d.edge d.alphabetInUse a = e := by
  by_cases hq : q < d.states.length
  · rw [edgesFrom_drawn h hq, List.mem_eraseDups]
    simp [and_assoc]
  · rw [Automaton.edgesFrom_of_numStates_le (h.fits_drawn.numStates_eq ▸ Nat.not_lt.mp hq)]
    refine iff_of_false List.not_mem_nil ?_
    rintro ⟨a, ha, hsource, -⟩
    exact hq (hsource ▸ List.idxOf_lt_length_of_mem (h.source_mem a ha))

/-- An edge that leaves the state of a name is the edge of an arrow that leaves the name. -/
theorem Valid.exists_arrow (h : d.Valid) {q : Nat} {e : Edge} (he : e ∈ d.drawn.edgesFrom q)
    (hname : d.states[q]? = some name) :
    ∃ a ∈ d.arrows, a.source = name ∧ labelOf d.alphabetInUse a.symbol = e.label ∧
      d.states[e.target]? = some a.target := by
  obtain ⟨a, ha, rfl, rfl⟩ := h.mem_edgesFrom_drawn.mp he
  rw [List.getElem?_idxOf (h.source_mem a ha)] at hname
  exact ⟨a, ha, Option.some.inj hname, rfl, List.getElem?_idxOf (h.target_mem a ha)⟩

/-- A valid arrow stands for nothing and its label is ε, or its label has its character. -/
theorem Valid.label_cases (h : d.Valid) {a : Arrow} (ha : a ∈ d.arrows) :
    (Spelling.normalise a.symbol).toList = [] ∧ labelOf d.alphabetInUse a.symbol = .epsilon ∨
      ∃ c id, (Spelling.normalise a.symbol).toList = [c] ∧
        labelOf d.alphabetInUse a.symbol = .symbol id ∧ d.alphabetInUse.symbol? id = some c := by
  have hreadable := (h.placed ha).readable
  cases hchar : char? a.symbol with
  | none => exact Or.inl ⟨List.head?_eq_none_iff.mp hchar, labelOf_of_eq_none hchar⟩
  | some c =>
    exact Or.inr ⟨c, _, hreadable.short.char?_eq_some_iff.mp hchar, labelOf_of_eq_some hchar,
      List.getElem?_idxOf (hreadable.mem c hchar)⟩

/-! ## Routes and paths -/

/-- What the texts on a route stand for, one behind the other. -/
def spelled (texts : List String) : List Char :=
  texts.flatMap fun text => (Spelling.normalise text).toList

theorem spelled_cons (text : String) (texts : List String) :
    spelled (text :: texts) = (Spelling.normalise text).toList ++ spelled texts := rfl

theorem toList_normalise_join (texts : List String) :
    (Spelling.normalise (String.join texts)).toList = spelled texts := by
  induction texts with
  | nil => rfl
  | cons text rest ih =>
    rw [String.join_cons, Spelling.normalise_append, String.toList_append, ih, spelled_cons]

/-- A route leads through the automaton. -/
theorem Route.path (hr : d.Route name texts target) (h : d.Valid) :
    d.drawn.Path d.alphabetInUse.symbol? (d.states.idxOf name) (spelled texts)
      (d.states.idxOf target) := by
  induction hr with
  | nil name => exact .refl _
  | @cons a texts target ha _ ih =>
    have hedge : d.edge d.alphabetInUse a ∈ d.drawn.edgesFrom (d.states.idxOf a.source) :=
      h.mem_edgesFrom_drawn.mpr ⟨a, ha, rfl, rfl⟩
    rw [spelled_cons]
    rcases h.label_cases ha with ⟨hnothing, hlabel⟩ | ⟨c, id, hone, hlabel, hid⟩
    · rw [edge, hlabel] at hedge
      rw [hnothing]
      exact .epsilon hedge ih
    · rw [edge, hlabel] at hedge
      rw [hone]
      exact .symbol hedge hid ih

/-- A path through the automaton, from the state of a name, comes from a route. -/
theorem Valid.exists_route (h : d.Valid) {q r : Nat} {w : List Char}
    (hp : d.drawn.Path d.alphabetInUse.symbol? q w r) (hname : d.states[q]? = some name) :
    ∃ texts target, d.Route name texts target ∧ d.states[r]? = some target ∧ spelled texts = w := by
  -- the path is followed from its front, since a route is too
  induction hp generalizing name with
  | refl q => exact ⟨[], name, .nil name, hname, rfl⟩
  | epsilon hedge _ ih =>
    obtain ⟨a, ha, rfl, hlabel, htarget⟩ := h.exists_arrow hedge hname
    obtain ⟨texts, target, hroute, hend, hspelled⟩ := ih htarget
    refine ⟨a.symbol :: texts, target, .cons ha hroute, hend, ?_⟩
    rw [spelled_cons, hspelled]
    rcases h.label_cases ha with ⟨hnothing, -⟩ | ⟨c, id, -, hsymbol, -⟩
    · rw [hnothing, List.nil_append]
    · cases hlabel.symm.trans hsymbol
  | symbol hedge hid _ ih =>
    obtain ⟨a, ha, rfl, hlabel, htarget⟩ := h.exists_arrow hedge hname
    obtain ⟨texts, target, hroute, hend, hspelled⟩ := ih htarget
    refine ⟨a.symbol :: texts, target, .cons ha hroute, hend, ?_⟩
    rw [spelled_cons, hspelled]
    rcases h.label_cases ha with ⟨-, hepsilon⟩ | ⟨c, id, hone, hsymbol, hc⟩
    · cases hlabel.symm.trans hepsilon
    · obtain rfl := Label.symbol.inj (hlabel.symm.trans hsymbol)
      obtain rfl := Option.some.inj (hid.symm.trans hc)
      rw [hone, List.singleton_append]

/-- **The automaton of a valid diagram shows the diagram.** -/
theorem Valid.shows_drawn (h : d.Valid) : d.Shows d.drawn where
  numStates_eq := h.fits_drawn.numStates_eq
  start_eq := by
    rw [start_drawn]
    exact List.getElem?_idxOf h.start_mem
  accepting_iff q := by
    rw [contains_accepting_drawn]
    refine exists_congr fun name => and_congr_right fun hname => ?_
    rw [getElem?_eq_some_iff_idxOf h.states_nodup]
    exact ⟨fun hq => ⟨h.accepting_mem name hname, hq.symm⟩, fun hq => hq.2.symm⟩
  mem_alphabet c := by
    rw [alphabet_drawn]
    exact mem_alphabetInUse h.symbols
  edge_reads a ha := by
    have htarget := List.getElem?_idxOf (h.target_mem a ha)
    have hempty : Spelling.normalise a.symbol = "" ↔ (Spelling.normalise a.symbol).toList = [] := by
      rw [← String.toList_inj]
      rfl
    rw [alphabet_drawn, edge, hempty, char?]
    rcases h.label_cases ha with ⟨hnothing, hlabel⟩ | ⟨c, id, hone, hlabel, hid⟩
    · rw [hlabel, hnothing]
      exact ⟨rfl, iff_of_true rfl rfl, htarget⟩
    · rw [hlabel, hone]
      exact ⟨hid, iff_of_false (by rintro ⟨⟩) (by rintro ⟨⟩), htarget⟩
  edgesFrom_eq q name hname := by
    obtain ⟨hmem, rfl⟩ := (getElem?_eq_some_iff_idxOf h.states_nodup).mp hname
    rw [edgesFrom_drawn h (List.idxOf_lt_length_of_mem hmem), alphabet_drawn]
    have hfilter : (d.arrows.filter fun a => d.states.idxOf a.source = d.states.idxOf name) =
        d.arrows.filter (·.source = name) :=
      List.filter_congr fun a ha => decide_eq_decide.mpr (List.idxOf_inj (h.source_mem a ha))
    rw [hfilter]
  accepts_iff w := by
    rw [Automaton.accepts_iff h.fits_drawn.wellFormed, alphabet_drawn, Automaton.mem_language,
      start_drawn]
    constructor
    · rintro ⟨r, hr, hpath⟩
      obtain ⟨name, hname, rfl⟩ := (contains_accepting_drawn d).mp hr
      obtain ⟨texts, target, hroute, htarget, hspelled⟩ :=
        h.exists_route hpath (List.getElem?_idxOf h.start_mem)
      rw [List.getElem?_idxOf (h.accepting_mem name hname)] at htarget
      obtain rfl := Option.some.inj htarget
      exact ⟨texts, name, hname, hroute, by rw [← String.toList_inj, toList_normalise_join, hspelled]⟩
    · rintro ⟨texts, name, hname, hroute, rfl⟩
      refine ⟨d.states.idxOf name, (contains_accepting_drawn d).mpr ⟨name, hname, rfl⟩, ?_⟩
      rw [toList_normalise_join]
      exact hroute.path h

/-- **A diagram has an automaton exactly if it is valid, and the automaton shows the diagram.** A
diagram that is not valid is an invalid format. -/
theorem toAutomaton_shows (d : Diagram) :
    ((∃ m, d.toAutomaton = .ok m) ↔ d.Valid) ∧
      (∀ e, d.toAutomaton = .error e → e.family = .invalidFormat) ∧
      ∀ m, d.toAutomaton = .ok m → d.Shows m := by
  refine ⟨⟨?_, ?_⟩, okOrInvalid_toAutomaton d, ?_⟩
  · rintro ⟨m, hm⟩
    exact (toAutomaton_eq_ok_iff.mp hm).1
  · intro h
    exact ⟨d.drawn, toAutomaton_eq_ok_iff.mpr ⟨h, rfl⟩⟩
  · intro m hm
    obtain ⟨h, rfl⟩ := toAutomaton_eq_ok_iff.mp hm
    exact h.shows_drawn

/-- The case of two arrows that read nothing, in two spellings, and the case of a start that no state
has as its name. -/
theorem toAutomaton_shows_of_loop :
    let d : Diagram := ⟨none, ["p", "q"], "p", ["q"], [⟨"p", "a", "q"⟩, ⟨"q", "", "p"⟩, ⟨"q", "εε", "p"⟩]⟩
    (∃ m, d.toAutomaton = .ok m ∧ d.Shows m ∧ m.accepts "aa" = true) ∧
      ∃ e, Diagram.toAutomaton ⟨none, ["p"], "q", [], []⟩ = .error e ∧ e.family = .invalidFormat := by
  intro d
  have hvalid : d.Valid := by
    refine ⟨by decide, by decide, by decide, by decide, by decide, by decide, by decide, ?_⟩
    intro a ha c hc
    have hself : d.symbolsInUse = d.arrows.map Arrow.symbol := rfl
    exact ⟨a.symbol, hself ▸ List.mem_map_of_mem ha, hc⟩
  obtain ⟨m, hm⟩ := (toAutomaton_shows d).1.mpr hvalid
  have hshows := (toAutomaton_shows d).2.2 m hm
  have hroute : d.Route "p" ["a", "εε", "a"] "q" :=
    .cons (a := ⟨"p", "a", "q"⟩) (by decide) (.cons (a := ⟨"q", "εε", "p"⟩) (by decide)
      (.cons (a := ⟨"p", "a", "q"⟩) (by decide) (.nil "q")))
  have hunknown : Diagram.toAutomaton ⟨none, ["p"], "q", [], []⟩ = .error (.unknownState "q") := by
    rfl
  exact ⟨⟨m, hm, hshows, (hshows.accepts_iff "aa").mpr ⟨_, "q", by decide, hroute, by decide⟩⟩,
    _, hunknown, (toAutomaton_shows _).2.1 _ hunknown⟩

end Diagram

end RegularLanguages
