import RegularLanguages.StateSet
import RegularLanguages.StateSet.BitRow

/-!
# Programs on sets of states

A program makes sets of states, adds states to them and joins them, in any order. What it sees of a
kind of sets are their operations (`SetOperations`). The sets of this library and the sets over a
kind of rows of bits are two kinds with the same operations, so that a program runs on either.
-/

namespace RegularLanguages

/-! ## What a program sees -/

/-- The operations of a kind of sets of states. An insertion tells whether the state was absent. -/
structure SetOperations (α : Type) where
  withCapacity : Nat → α
  singleton? : Nat → Nat → Option α
  ofList? : List Nat → Option α
  insert? : α → Nat → Option (Bool × α)
  union : α → α → α
  contains : α → Nat → Bool
  size : α → Nat
  isEmpty : α → Bool
  toList : α → List Nat
  intersects : α → α → Bool
  equal : α → α → Bool

/-- The sets over a kind of rows. -/
def BitRow.operations {β : Type} (v : BitRow β) : SetOperations β where
  withCapacity := v.withCapacity
  singleton? := v.singleton?
  ofList? := v.ofList?
  insert? := v.insert?
  union := v.union
  contains := v.get
  size := v.countOnes
  isEmpty := v.isClear
  toList := v.ones
  intersects s t := !v.isDisjoint s t
  equal s t := v.ones s == v.ones t

/-- The sets of this library. Nothing fails. -/
def StateSet.operations : SetOperations StateSet where
  withCapacity := StateSet.withCapacity
  singleton? q capacity := some (.singleton q capacity)
  ofList? qs := some (.ofList qs)
  insert? s q := some (s.insertFresh q)
  union := StateSet.union
  contains := StateSet.contains
  size := StateSet.size
  isEmpty := StateSet.isEmpty
  toList := StateSet.toList
  intersects := StateSet.intersects
  equal s t := s == t

/-! ## Programs -/

namespace SetOperations

/-- One operation of a program on a row of sets. Sets are named by their places; a new one is put at
the end. -/
inductive Command where
  | withCapacity (capacity : Nat)
  | singleton (q capacity : Nat)
  | collect (qs : List Nat)
  | insert (i q : Nat)
  | union (i j : Nat)

/-- The sets of a program, and what its insertions told. -/
structure Progress (α : Type) where
  sets : List α
  fresh : List Bool

variable {α : Type}

/-- No sets yet. -/
def Progress.start : Progress α := ⟨[], []⟩

/-- Puts a new set at the end. -/
def Progress.add (p : Progress α) (s : α) : Progress α := { p with sets := p.sets ++ [s] }

/-- One operation. Nothing happens if there is no set at a place. -/
def step? (k : SetOperations α) (p : Progress α) : Command → Option (Progress α)
  | .withCapacity capacity => some (p.add (k.withCapacity capacity))
  | .singleton q capacity => (k.singleton? q capacity).map p.add
  | .collect qs => (k.ofList? qs).map p.add
  | .insert i q =>
    match p.sets[i]? with
    | some s => (k.insert? s q).map fun (fresh, s') => ⟨p.sets.set i s', p.fresh ++ [fresh]⟩
    | none => some p
  | .union i j =>
    match p.sets[i]?, p.sets[j]? with
    | some s, some t => some { p with sets := p.sets.set i (k.union s t) }
    | _, _ => some p

/-- A whole program. -/
def run? (k : SetOperations α) (program : List Command) : Option (Progress α) :=
  program.foldlM k.step? .start

end SetOperations

end RegularLanguages
