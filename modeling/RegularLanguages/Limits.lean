/-!
# Limits

What a compilation may cost. Both limits are 32-bit numbers.
-/

namespace RegularLanguages

/-- The largest count of a repetition and the largest number of states. -/
structure Limits where
  maxRepetition : UInt32
  maxStates : UInt32
  deriving DecidableEq, Repr

/-- The limits that hold where none are given. -/
def Limits.standard : Limits := ⟨1000000, 4000000⟩

end RegularLanguages
