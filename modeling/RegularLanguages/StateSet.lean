/-!
# State sets

A set of states is a row of bits: place `q` says whether state `q` is a member. The row grows on
demand, so sets made for automata of different sizes can be combined, and the length of the row is
no part of the set: two sets are equal when they have the same members.

## Mechanism

`contains` is the view. Every operation is described by what it does to it, and `toList` lists the
members in increasing order, so that equal sets have equal lists and the list serves as a key.
-/

namespace RegularLanguages

/-- A growing row of bits; the set of the places that hold `true`. -/
structure StateSet where
  bits : Array Bool

namespace StateSet

/-! ## Membership -/

/-- Whether a state is a member. Places past the end of the row hold nothing. -/
def contains (s : StateSet) (q : Nat) : Bool :=
  if h : q < s.bits.size then s.bits[q] else false

theorem contains_eq (s : StateSet) (q : Nat) : s.contains q = (s.bits[q]?).getD false := by
  unfold contains
  split <;> simp [*]

/-- A state past the end of the row is no member. -/
theorem contains_of_size_le {s : StateSet} {q : Nat} (h : s.bits.size ≤ q) :
    s.contains q = false := by
  simp [contains, Nat.not_lt.2 h]

/-- The empty set, with room for `capacity` states. -/
def withCapacity (capacity : Nat) : StateSet := ⟨Array.replicate capacity false⟩

instance : EmptyCollection StateSet := ⟨withCapacity 0⟩

@[simp] theorem contains_withCapacity (n : Nat) (q : Nat) :
    (withCapacity n).contains q = false := by
  simp [contains, withCapacity]

@[simp] theorem contains_empty (q : Nat) : (∅ : StateSet).contains q = false :=
  contains_withCapacity 0 q

/-! ## Insertion -/

/-- Makes the row at least `n` places long. -/
def grow (s : StateSet) (n : Nat) : StateSet :=
  if s.bits.size < n then ⟨s.bits ++ Array.replicate (n - s.bits.size) false⟩ else s

theorem le_size_grow (s : StateSet) (n : Nat) : n ≤ (s.grow n).bits.size := by
  unfold grow
  split
  · simp only [Array.size_append, Array.size_replicate]
    omega
  · omega

/-- Growing the row adds no member. -/
@[simp] theorem contains_grow (s : StateSet) (n : Nat) (q : Nat) :
    (s.grow n).contains q = s.contains q := by
  unfold grow
  split
  · rw [contains_eq, contains_eq, Array.getElem?_append]
    split
    · rfl
    · next hq =>
      have hnone : s.bits[q]? = none := Array.getElem?_eq_none (Nat.not_lt.1 hq)
      rw [Array.getElem?_replicate, hnone]
      split <;> rfl
  · rfl

/-- Adds a state, growing the row if it is too short. -/
def insert (s : StateSet) (q : Nat) : StateSet :=
  ⟨(s.grow (q + 1)).bits.setIfInBounds q true⟩

@[simp] theorem contains_insert (s : StateSet) (q r : Nat) :
    (s.insert q).contains r = (decide (r = q) || s.contains r) := by
  have hsize := s.le_size_grow (q + 1)
  rw [← contains_grow s (q + 1) r, contains_eq, contains_eq, insert, Array.getElem?_setIfInBounds]
  by_cases h : q = r
  · subst h
    simp only [if_true, decide_true, Bool.true_or]
    rw [if_pos (by omega)]
    rfl
  · simp [h, Ne.symm h]

theorem contains_insert_iff {s : StateSet} {q r : Nat} :
    (s.insert q).contains r = true ↔ r = q ∨ s.contains r = true := by
  rw [contains_insert, Bool.or_eq_true, decide_eq_true_iff]

theorem forall_contains_insert {s : StateSet} {q : Nat} {P : Nat → Prop} :
    (∀ r, (s.insert q).contains r = true → P r) ↔ P q ∧ ∀ r, s.contains r = true → P r := by
  simp only [contains_insert_iff, or_imp, forall_and, forall_eq]

/-- Adds a state and tells whether it was absent. -/
def insertFresh (s : StateSet) (q : Nat) : Bool × StateSet := (!s.contains q, s.insert q)

@[simp] theorem insertFresh_fst (s : StateSet) (q : Nat) :
    (s.insertFresh q).1 = !s.contains q := rfl

@[simp] theorem insertFresh_snd (s : StateSet) (q : Nat) : (s.insertFresh q).2 = s.insert q := rfl

/-- Adds every state of a list. -/
def insertAll (s : StateSet) (qs : List Nat) : StateSet := qs.foldl insert s

@[simp] theorem contains_insertAll (s : StateSet) (qs : List Nat) (r : Nat) :
    (s.insertAll qs).contains r = (decide (r ∈ qs) || s.contains r) := by
  induction qs generalizing s with
  | nil => simp [insertAll]
  | cons q rest ih =>
    rw [insertAll, List.foldl_cons, ← insertAll, ih, contains_insert]
    by_cases h : r = q <;> simp [h]

/-- The set of one state, with room for `capacity` states. -/
def singleton (q : Nat) (capacity : Nat) : StateSet := (withCapacity capacity).insert q

/-- The set of the states of a list. -/
def ofList (qs : List Nat) : StateSet := insertAll ∅ qs

@[simp] theorem contains_ofList (qs : List Nat) (r : Nat) :
    (ofList qs).contains r = decide (r ∈ qs) := by
  simp [ofList]

/-! ## Members -/

/-- The members in increasing order. -/
def toList (s : StateSet) : List Nat := (List.range s.bits.size).filter s.contains

@[simp] theorem mem_toList {s : StateSet} {q : Nat} : q ∈ s.toList ↔ s.contains q = true := by
  simp only [toList, List.mem_filter, List.mem_range, and_iff_right_iff_imp]
  intro h
  exact Decidable.byContradiction fun hq => by
    simp [contains_of_size_le (Nat.not_lt.1 hq)] at h

/-- The list of members is strictly increasing. -/
theorem pairwise_toList (s : StateSet) : s.toList.Pairwise (· < ·) :=
  List.pairwise_lt_range.filter _

/-- The number of members. -/
def size (s : StateSet) : Nat := s.toList.length

/-- Whether there is no member. -/
def isEmpty (s : StateSet) : Bool := s.bits.all (!·)

/-! ## Two sets -/

/-- Adds every member of `t` to `s`. -/
def union (s t : StateSet) : StateSet := s.insertAll t.toList

@[simp] theorem contains_union (s t : StateSet) (q : Nat) :
    (s.union t).contains q = (t.contains q || s.contains q) := by
  simp [union]

/-- Whether the sets share a member. -/
def intersects (s t : StateSet) : Bool := s.toList.any t.contains

instance : BEq StateSet := ⟨fun s t => s.toList == t.toList⟩

/-- The members between braces. -/
protected def toString (s : StateSet) : String :=
  "\x7b" ++ ", ".intercalate (s.toList.map toString) ++ "\x7d"

instance : ToString StateSet := ⟨StateSet.toString⟩

end StateSet

end RegularLanguages
