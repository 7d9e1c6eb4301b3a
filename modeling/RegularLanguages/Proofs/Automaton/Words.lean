import RegularLanguages.Automaton.Words
import RegularLanguages.Proofs.Automaton.Size

/-!
# Machine words are exact while the states can be counted

Every number that a construction adds up is the number of a state of the result: the target of an edge,
the start or an accepting state of an operand, each moved up by the place of the operand's copy. So if
the result has fewer than `2 ^ 32` states, no sum starts again from zero, and the construction in machine
words is the one of the algebra. How many states the result really has does not depend on the numbers.
-/

namespace RegularLanguages

theorem add32_of_lt {a b : Nat} (h : a + b < 2 ^ 32) : add32 a b = a + b := by
  rw [add32, UInt32.toNat_add, UInt32.toNat_ofNat_of_lt' (by show a < 2 ^ 32; omega),
    UInt32.toNat_ofNat_of_lt' (by show b < 2 ^ 32; omega), Nat.mod_eq_of_lt h]

/-- Numbers are moved up exactly if they stay below `2 ^ 32`. -/
theorem map_add32 {qs : List Nat} {offset bound : Nat} (hqs : ∀ q ∈ qs, q < bound)
    (hbound : offset + bound ≤ 2 ^ 32) : qs.map (add32 · offset) = qs.map (· + offset) := by
  refine List.map_congr_left fun q hq => add32_of_lt ?_
  have := hqs q hq
  omega

namespace Automaton

variable {m a b l r : Automaton}

/-! ## Counting states -/

theorem toNat_numStates32 (h : m.numStates < 2 ^ 32) : m.numStates32.toNat = m.numStates :=
  UInt32.toNat_ofNat_of_lt' h

theorem next32_eq (h : m.numStates < 2 ^ 32) : m.next32 = m.numStates := toNat_numStates32 h

@[simp] theorem numStates_embed32 (m other : Automaton) :
    (m.embed32 other).numStates = m.numStates + other.numStates := by
  simp [numStates, embed32]

@[simp] theorem numStates_union32 (a b : Automaton) :
    (a.union32 b).numStates = a.numStates + b.numStates + 2 := by
  simp only [union32, unionAligned32, numStates_addAccepting, numStates_addEpsilons,
    numStates_addState, numStates_embed32, numStates_ofStart, numStates_align_left,
    numStates_align_right]
  omega

@[simp] theorem numStates_concat32 (a b : Automaton) :
    (a.concat32 b).numStates = a.numStates + b.numStates := by
  simp [concat32, concatAligned32]

@[simp] theorem numStates_star32 (a : Automaton) : a.star32.numStates = a.numStates + 1 := by
  simp [star32, Nat.add_comm]

theorem Layout.numStates_appendCopies32 (a : Automaton) (n : Nat) (layout : Layout) :
    (layout.appendCopies32 a n).body.numStates = layout.body.numStates + n * a.numStates := by
  induction n generalizing layout with
  | zero => simp [appendCopies32]
  | succ n ih =>
    rw [appendCopies32, ih, append32, numStates_addEpsilons, numStates_embed32, Nat.succ_mul]
    omega

theorem numStates_power32 (a : Automaton) (n : Nat) :
    (a.power32 n).numStates = if n = 0 then 1 else a.numStates * n := by
  cases n with
  | zero => rfl
  | succ n =>
    rw [power32, Layout.close, numStates_addAllAccepting, Layout.numStates_appendCopies32,
      numStates_clearAccepting, if_neg (Nat.succ_ne_zero n), Nat.mul_succ, Nat.mul_comm]
    omega

/-! ## Copies -/

/-- A copy keeps its targets if it ends where states can still be numbered. -/
theorem embed32_eq (hb : b.WellFormed) (h : m.numStates + b.numStates ≤ 2 ^ 32) :
    m.embed32 b = m.embed b := by
  have hstart := hb.start_lt
  have hnext : m.next32 = m.numStates := next32_eq (by omega)
  have hrow : ∀ edges ∈ b.edges, edges.map (fun e => ⟨e.label, add32 e.target m.next32⟩) =
      edges.map (Edge.shift m.numStates) := by
    intro edges hedges
    refine List.map_congr_left fun e he => ?_
    obtain ⟨q, hq, rfl⟩ := Array.getElem_of_mem hedges
    have htarget : e.target < b.numStates := by
      refine hb.target_lt q e ?_
      rw [edgesFrom, Array.getD_eq_getD_getElem?, Array.getElem?_eq_getElem hq]
      exact he
    rw [hnext, add32_of_lt (by omega)]
    rfl
  rw [embed32, embed, Array.map_congr_left hrow]

theorem embed32_ofStart {alphabet : Alphabet} (hb : b.WellFormed) (h : b.numStates + 1 ≤ 2 ^ 32) :
    (ofStart alphabet).embed32 b = (ofStart alphabet).embed b := by
  refine embed32_eq hb ?_
  rwa [numStates_ofStart, Nat.add_comm]

/-- The state that is added after a copy has the number behind those of the copy. -/
theorem next32_embed (h : m.numStates + b.numStates < 2 ^ 32) :
    (m.embed b).next32 = m.numStates + b.numStates := by
  rw [next32_eq, numStates_embed]
  rwa [numStates_embed]

theorem WellFormed.accepting_bound (hm : m.WellFormed) : ∀ q ∈ m.accepting.toList, q < m.numStates :=
  fun q hq => hm.accepting_lt q (StateSet.mem_toList.mp hq)

/-! ## Operators -/

theorem unionAligned32_eq (hl : l.WellFormed) (hr : r.WellFormed)
    (h : l.numStates + r.numStates + 2 ≤ 2 ^ 32) : unionAligned32 l r = unionAligned l r := by
  have hl_start := hl.start_lt
  have hr_start := hr.start_lt
  have hfirst : (ofStart l.alphabet).next32 = 1 := rfl
  have hcopy : (ofStart l.alphabet).embed32 l = (ofStart l.alphabet).embed l :=
    embed32_ofStart hl (by omega)
  have hlength : ((ofStart l.alphabet).embed l).numStates = 1 + l.numStates := by
    rw [numStates_embed, numStates_ofStart]
  have hcopies : ((ofStart l.alphabet).embed l).embed32 r = ((ofStart l.alphabet).embed l).embed r :=
    embed32_eq hr (by omega)
  have hsecond : ((ofStart l.alphabet).embed l).next32 = 1 + l.numStates := by
    rw [next32_eq (by omega), hlength]
  have hthird : (((ofStart l.alphabet).embed l).embed r).next32 = 1 + l.numStates + r.numStates := by
    rw [next32_embed (by omega), hlength]
  simp only [unionAligned32, unionAligned, hcopy, hcopies, hfirst, hsecond, hthird]
  rw [add32_of_lt (by omega), add32_of_lt (by omega), map_add32 hl.accepting_bound (by omega),
    map_add32 hr.accepting_bound (by omega)]

theorem concatAligned32_eq (hr : r.WellFormed)
    (h : l.numStates + r.numStates ≤ 2 ^ 32) : concatAligned32 l r = concatAligned l r := by
  have hr_start := hr.start_lt
  have hcopies : l.clearAccepting.embed32 r = l.clearAccepting.embed r := embed32_eq hr h
  have hnext : l.next32 = l.numStates := next32_eq (by omega)
  simp only [concatAligned32, concatAligned, hcopies, hnext]
  rw [add32_of_lt (by omega), map_add32 hr.accepting_bound h]

theorem union32_eq (ha : a.WellFormed) (hb : b.WellFormed)
    (h : (a.union32 b).numStates < 2 ^ 32) : a.union32 b = a.union b := by
  obtain ⟨hl, hr, -⟩ := wellFormed_align ha hb
  rw [numStates_union32] at h
  refine unionAligned32_eq hl hr ?_
  rw [numStates_align_left, numStates_align_right]
  omega

theorem concat32_eq (ha : a.WellFormed) (hb : b.WellFormed)
    (h : (a.concat32 b).numStates < 2 ^ 32) : a.concat32 b = a.concat b := by
  obtain ⟨hl, hr, -⟩ := wellFormed_align ha hb
  rw [numStates_concat32] at h
  refine concatAligned32_eq hr ?_
  rw [numStates_align_left, numStates_align_right]
  omega

theorem star32_eq (ha : a.WellFormed) (h : a.star32.numStates < 2 ^ 32) : a.star32 = a.star := by
  rw [numStates_star32] at h
  have hstart := ha.start_lt
  have hfirst : (ofStart a.alphabet).next32 = 1 := rfl
  have hcopy : (ofStart a.alphabet).embed32 a = (ofStart a.alphabet).embed a :=
    embed32_ofStart ha (by omega)
  simp only [star32, star, hcopy, hfirst]
  rw [add32_of_lt (by omega), map_add32 ha.accepting_bound (by omega)]

/-! ## Powers -/

theorem Layout.append32_eq {layout : Layout} (ha : a.WellFormed)
    (h : layout.body.numStates + a.numStates ≤ 2 ^ 32) : layout.append32 a = layout.append a := by
  have hstart := ha.start_lt
  have hcopy : layout.body.embed32 a = layout.body.embed a := embed32_eq ha h
  have hnext : layout.body.next32 = layout.body.numStates := next32_eq (by omega)
  simp only [append32, append, hcopy, hnext]
  rw [add32_of_lt (by omega), map_add32 ha.accepting_bound h]

theorem Layout.appendCopies32_eq (ha : a.WellFormed) (n : Nat) {layout : Layout}
    (h : layout.body.numStates + n * a.numStates ≤ 2 ^ 32) :
    layout.appendCopies32 a n = layout.appendCopies a n := by
  induction n generalizing layout with
  | zero => rfl
  | succ n ih =>
    rw [Nat.succ_mul] at h
    rw [appendCopies32, appendCopies, append32_eq ha (by omega)]
    refine ih ?_
    rw [append, numStates_addEpsilons, numStates_embed]
    omega

theorem power32_eq (ha : a.WellFormed) {n : Nat} (h : (a.power32 n).numStates < 2 ^ 32) :
    a.power32 n = a.power n := by
  cases n with
  | zero => rfl
  | succ n =>
    rw [numStates_power32, if_neg (Nat.succ_ne_zero n), Nat.mul_succ, Nat.mul_comm] at h
    rw [power32, power, Layout.appendCopies32_eq ha n]
    rw [numStates_clearAccepting]
    omega

end Automaton

end RegularLanguages
