import RegularLanguages.Diagram.Basic
import RegularLanguages.Proofs.Automaton.WellFormed

/-!
# Diagrams give well-formed automata

The states of the automaton are made before anything refers to them, one for each named state. So
the number of a name is the number of a state (`lt_of_stateNumber`), and what is added afterwards
keeps the automaton well formed. `Fits` is kept by each accepting name and by each arrow.
-/

namespace RegularLanguages

variable {m n : Automaton} {alphabet : Alphabet}

namespace Automaton

theorem WellFormed.addStates (h : m.WellFormed) (k : Nat) : (m.addStates k).WellFormed := by
  induction k generalizing m with
  | zero => exact h
  | succ k ih => exact ih h.addState

theorem WellFormed.setStart (h : m.WellFormed) {q : Nat} (hq : q < m.numStates) :
    (m.setStart q).WellFormed where
  start_lt := hq
  accepting_lt := h.accepting_lt
  target_lt := h.target_lt
  label_known := h.label_known
  edges_nodup := h.edges_nodup

end Automaton

namespace Diagram

variable {d : Diagram}

/-! ## Numbers of names -/

theorem lt_of_stateNumber {name : String} {q : Nat} (h : d.stateNumber name = .ok q) :
    q < d.states.length := by
  unfold stateNumber at h
  split at h
  · next hq =>
    obtain rfl := Except.ok.inj h
    exact (List.idxOf?_eq_some_iff.mp hq).1
  · cases h

theorem known_of_label {symbol : String} {l : Label} (h : label alphabet symbol = .ok l) :
    l.Known alphabet := by
  unfold label at h
  split at h
  · obtain rfl := Except.ok.inj h
    exact trivial
  · split at h
    · next id hid =>
      obtain rfl := Except.ok.inj h
      exact (List.idxOf?_eq_some_iff.mp hid).1
    · cases h
  · cases h

/-! ## Building -/

/-- The automaton is well formed and has one state for each named state. -/
structure Fits (d : Diagram) (m : Automaton) : Prop where
  wellFormed : m.WellFormed
  numStates_eq : m.numStates = d.states.length

theorem Fits.bare {start : Nat} (alphabet : Alphabet) (h : start < d.states.length) :
    d.Fits (bare alphabet d.states.length start) := by
  have hnum : ((Automaton.ofStart alphabet).addStates (d.states.length - 1)).numStates =
      d.states.length := by
    rw [Automaton.numStates_addStates, Automaton.numStates_ofStart]
    omega
  have hstates := (Automaton.wellFormed_ofStart alphabet).addStates (d.states.length - 1)
  exact ⟨hstates.setStart (by rw [hnum]; exact h), by
    rw [Diagram.bare, Automaton.numStates_setStart, hnum]⟩

theorem Fits.addAccepting (h : d.Fits m) {names : List String}
    (hn : d.addAccepting names m = .ok n) : d.Fits n := by
  induction names generalizing m with
  | nil =>
    obtain rfl := Except.ok.inj hn
    exact h
  | cons name rest ih =>
    rw [Diagram.addAccepting] at hn
    split at hn
    · next q hq =>
      have hlt := lt_of_stateNumber hq
      rw [← h.numStates_eq] at hlt
      exact ih ⟨h.wellFormed.addAccepting hlt, h.numStates_eq⟩ hn
    · cases hn

theorem Fits.addArrow (h : d.Fits m) {arrow : Arrow} (hn : d.addArrow m arrow = .ok n) :
    d.Fits n := by
  obtain ⟨source, -, hn⟩ := exists_of_bind_eq_ok hn
  obtain ⟨target, htarget, hn⟩ := exists_of_bind_eq_ok hn
  obtain ⟨l, hl, rfl⟩ := exists_of_map_eq_ok hn
  have hlt := lt_of_stateNumber htarget
  rw [← h.numStates_eq] at hlt
  refine ⟨h.wellFormed.addTransition source hlt (known_of_label hl), ?_⟩
  rw [Automaton.numStates_addTransition]
  exact h.numStates_eq

theorem Fits.addArrows (h : d.Fits m) {arrows : List Arrow}
    (hn : d.addArrows arrows m = .ok n) : d.Fits n := by
  induction arrows generalizing m with
  | nil =>
    obtain rfl := Except.ok.inj hn
    exact h
  | cons arrow rest ih =>
    rw [Diagram.addArrows] at hn
    split at hn
    · next next harrow => exact ih (h.addArrow harrow) hn
    · cases hn

/-- **The automaton of a diagram is well formed and has the named states.** -/
theorem fits_toAutomaton (h : d.toAutomaton = .ok m) : d.Fits m := by
  obtain ⟨alphabet, -, h⟩ := exists_of_bind_eq_ok h
  split at h
  · cases h
  · obtain ⟨start, hstart, h⟩ := exists_of_bind_eq_ok h
    obtain ⟨accepting, haccepting, h⟩ := exists_of_bind_eq_ok h
    have hbare := Fits.bare alphabet (lt_of_stateNumber hstart)
    exact (hbare.addAccepting haccepting).addArrows h

end Diagram

end RegularLanguages
