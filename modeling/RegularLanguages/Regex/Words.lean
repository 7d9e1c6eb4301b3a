import RegularLanguages.Automaton.Words
import RegularLanguages.Regex.Compiler

/-!
# Building in machine words

The automaton of a regex can be built in exact numbers or in those of the machine, where states are
counted in 32 bits and the product that is checked before a repetition has 64. An `Arithmetic` says
which. Besides the outcome there is a log of all automata that are made on the way, those that a check
refuses and those that only serve as an operand included.
-/

namespace RegularLanguages

open Automaton (literal emptyWord)

/-! ## Logs -/

/-- The automata that were made, in this order, and what came out. -/
structure Log where
  made : List Automaton
  outcome : Except Error Automaton

namespace Log

/-- Nothing is made, because of a fault. -/
def fail (e : Error) : Log := ⟨[], .error e⟩

/-- One automaton is made. -/
def make (m : Automaton) : Log := ⟨[m], .ok m⟩

/-- One automaton is made, unless there is a fault. -/
def ofExcept : Except Error Automaton → Log
  | .ok m => make m
  | .error e => fail e

/-- Goes on with the automaton that came out. -/
def bind (log : Log) (f : Automaton → Log) : Log :=
  match log.outcome with
  | .ok m => ⟨log.made ++ (f m).made, (f m).outcome⟩
  | .error _ => log

end Log

/-! ## Arithmetics -/

/-- How states are counted, and how automata are joined. -/
structure Arithmetic where
  numStates : Automaton → Nat
  statesOfCopies : Automaton → Nat → Nat
  union : Automaton → Automaton → Automaton
  concat : Automaton → Automaton → Automaton
  star : Automaton → Automaton
  power : Automaton → Nat → Automaton

/-- How many states so many copies have, in 64 bits. -/
def Automaton.statesOfCopies (m : Automaton) (count : UInt32) : UInt64 :=
  m.numStates32.toUInt64 * count.toUInt64

namespace Arithmetic

/-- Numbers of any size. -/
def exact : Arithmetic where
  numStates := Automaton.numStates
  statesOfCopies m count := m.numStates * count
  union := Automaton.union
  concat := Automaton.concat
  star := Automaton.star
  power := Automaton.power

/-- The numbers of the machine. -/
def words : Arithmetic where
  numStates m := m.numStates32.toNat
  statesOfCopies m count := (m.statesOfCopies (UInt32.ofNat count)).toNat
  union := Automaton.union32
  concat := Automaton.concat32
  star := Automaton.star32
  power := Automaton.power32

end Arithmetic

/-! ## Building -/

namespace Compiler

variable (c : Compiler) (w : Arithmetic)

/-- Makes an automaton and lets it pass if its count of states is not above the limit. -/
def checked (m : Automaton) : Log :=
  ⟨[m], if c.limits.maxStates.toNat < w.numStates m then .error c.tooLarge else .ok m⟩

/-- Repeats an automaton, unless the copies would have too many states. -/
def copied (count : Nat) (m : Automaton) : Log :=
  if c.limits.maxStates.toNat < w.statesOfCopies m count then .fail c.tooLarge
  else c.checked w (w.power m count)

/-- Builds the automaton of a regex. -/
def buildIn : Regex → Log
  | .terminal symbol => (Log.ofExcept (literal c.alphabet symbol)).bind (c.checked w)
  | .empty => c.checked w (emptyWord c.alphabet)
  | .emptyUnion x | .option x =>
    (buildIn x).bind fun m =>
      (Log.make (emptyWord m.alphabet)).bind fun e => c.checked w (w.union m e)
  | .union a b =>
    (buildIn a).bind fun l => (buildIn b).bind fun r => c.checked w (w.union l r)
  | .concatenation a b =>
    (buildIn a).bind fun l => (buildIn b).bind fun r => c.checked w (w.concat l r)
  | .star x => (buildIn x).bind fun m => c.checked w (w.star m)
  | .plus x =>
    (buildIn x).bind fun m => (Log.make (w.star m)).bind fun s => c.checked w (w.concat m s)
  | .paren x => (buildIn x).bind (c.checked w)
  | .repetition x count =>
    match c.repetitionCount count with
    | .ok n => (buildIn x).bind (c.copied w n)
    | .error e => .fail e
  | .digits text => .fail (.strayCount text)

/-- Reads a regex and builds its automaton. -/
def compileIn (text : String) : Log :=
  match c.parse text with
  | .ok x => c.buildIn w x
  | .error e => .fail e

end Compiler

/-- The automaton of a regex. Where no alphabet is given, it is the one of the symbols that the
regex uses. -/
def compileRegexIn (w : Arithmetic) (text : String) (alphabet : Option Alphabet) (limits : Limits) :
    Except Error Automaton :=
  (Compiler.ofAlphabet (alphabet.getD (Alphabet.infer text)) limits).bind fun c =>
    (c.compileIn w text).outcome

end RegularLanguages
