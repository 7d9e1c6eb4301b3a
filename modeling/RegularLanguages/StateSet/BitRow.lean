/-!
# State sets over rows of bits

A state set needs little of the row of bits that it is kept in. `BitRow` is what it needs, whatever
the bits are packed into, and the sets over a kind of rows are made from these operations alone.

## Mechanism

Setting a bit past the end of a row fails, so an insertion first makes the row long enough. Rows are
joined into the longer one: if the other row is longer, the row grows to its size first.
-/

namespace RegularLanguages

/-! ## Rows of bits -/

/-- The operations of a kind of rows of bits. Setting a bit gives the bit that was there, and fails
past the end of the row. -/
structure BitRow (β : Type) where
  withCapacity : Nat → β
  size : β → Nat
  get : β → Nat → Bool
  grow : β → Nat → β
  put? : β → Nat → Option (Bool × β)
  join : β → β → β
  isDisjoint : β → β → Bool
  isClear : β → Bool
  countOnes : β → Nat
  ones : β → List Nat

namespace BitRow

/-- Rows with one bit in each place of an array. -/
def arrays : BitRow (Array Bool) where
  withCapacity n := Array.replicate n false
  size := Array.size
  get b i := b.getD i false
  grow b n := b ++ Array.replicate (n - b.size) false
  put? b i := if i < b.size then some (b.getD i false, b.setIfInBounds i true) else none
  join b c := Array.ofFn fun i : Fin (max b.size c.size) => b.getD i false || c.getD i false
  isDisjoint b c := (List.range b.size).all fun i => !(b.getD i false && c.getD i false)
  isClear b := b.all (!·)
  countOnes b := (List.range b.size).countP (b.getD · false)
  ones b := (List.range b.size).filter (b.getD · false)

variable {β : Type} (v : BitRow β)

/-! ## Sets over rows -/

/-- Adds a state, growing the row if it is too short, and tells whether the state was absent. -/
def insert? (s : β) (q : Nat) : Option (Bool × β) :=
  (v.put? (if v.size s ≤ q then v.grow s (q + 1) else s) q).map fun (old, s) => (!old, s)

/-- The set of one state, with room for `capacity` states. -/
def singleton? (q capacity : Nat) : Option β :=
  (v.insert? (v.withCapacity capacity) q).map Prod.snd

/-- The set of the states of a list. -/
def ofList? (qs : List Nat) : Option β :=
  qs.foldlM (fun s q => (v.insert? s q).map Prod.snd) (v.withCapacity 0)

/-- Adds every member of `t` to `s`. -/
def union (s t : β) : β := v.join (if v.size s < v.size t then v.grow s (v.size t) else s) t

end BitRow

end RegularLanguages
