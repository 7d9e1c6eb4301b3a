import RegularLanguages.Automaton.Algebra
import RegularLanguages.Limits
import RegularLanguages.Grammar.Chart
import RegularLanguages.Regex.Grammar
import RegularLanguages.Regex.OfTree

/-!
# From regexes to automata

A compiler reads regexes over one alphabet and turns them into automata, within limits.

## Mechanism

A text is brought into canonical form and parsed by the grammar of the alphabet. It must have
exactly one tree. The automaton for the regex of that tree is then built up from its parts by the
algebra of automata. After each part the number of states is checked; a repetition is checked before
its copies are made, too, so no row of copies is laid out that is over the limit.

The count of a repetition is read before its operand is built, and a left operand is built before a
right one. So of two faults, the one that comes first in this order is reported.

Here states are counted in exact numbers. `Compiler.buildIn` also counts them in 32 bits.
-/

namespace RegularLanguages

/-- An alphabet, the grammar of regexes over it, and limits. -/
structure Compiler where
  alphabet : Alphabet
  grammar : Grammar
  limits : Limits

/-! ## Counts -/

namespace Regex

/-- The value of a row of decimal digits, if it is one. -/
def decimal? (cs : List Char) : Option Nat :=
  if cs.isEmpty then none
  else if cs.all Char.isDigit then
    some (cs.foldl (fun value c => 10 * value + (c.toNat - '0'.toNat)) 0)
  else none

/-- The value of a count: decimal digits, leading zeros and one plus sign in front allowed. -/
def countValue? (text : String) : Option Nat :=
  match text.toList with
  | '+' :: cs => decimal? cs
  | cs => decimal? cs

end Regex

namespace Compiler

/-- The compiler for an alphabet. -/
def ofAlphabet (alphabet : Alphabet) (limits : Limits) : Except Error Compiler :=
  (Regex.grammar alphabet).map fun grammar => ⟨alphabet, grammar, limits⟩

/-! ## Reading -/

/-- Reads a regex. It must have exactly one parse tree. -/
def parse (c : Compiler) (text : String) : Except Error Regex :=
  let canonical := Spelling.normalise text
  match c.grammar.parse canonical with
  | [] => .error (.noTree canonical c.alphabet)
  | [tree] => Regex.ofTree tree
  | trees => .error (.manyTrees canonical trees.length c.alphabet)

/-! ## Building -/

/-- The error for an automaton with too many states. -/
def tooLarge (c : Compiler) : Error := .tooManyStates c.limits.maxStates.toNat

/-- Lets an automaton pass if it does not have too many states. -/
def checkSize (c : Compiler) (m : Automaton) : Except Error Automaton :=
  if c.limits.maxStates.toNat < m.numStates then .error c.tooLarge else .ok m

/-- The number of repetitions that a count asks for. -/
def repetitionCount (c : Compiler) : Regex → Except Error Nat
  | .digits text =>
    let limit := c.limits.maxRepetition.toNat
    match Regex.countValue? text with
    | some count => if count ≤ limit then .ok count else .error (.countTooLarge text limit)
    | none => .error (.countTooLarge text limit)
  | _ => .error .countExpected

/-- Repeats an automaton, unless the copies would have too many states. -/
def repeated (c : Compiler) (count : Nat) (m : Automaton) : Except Error Automaton :=
  if c.limits.maxStates.toNat < m.numStates * count then .error c.tooLarge
  else c.checkSize (m.power count)

/-- The automaton of a regex. -/
def build (c : Compiler) : Regex → Except Error Automaton
  | .terminal symbol => (Automaton.literal c.alphabet symbol).bind c.checkSize
  | .empty => c.checkSize (Automaton.emptyWord c.alphabet)
  | .emptyUnion x => (c.build x).bind fun m => c.checkSize m.optional
  | .option x => (c.build x).bind fun m => c.checkSize m.optional
  | .union a b =>
    (c.build a).bind fun l => (c.build b).bind fun r => c.checkSize (l.union r)
  | .concatenation a b =>
    (c.build a).bind fun l => (c.build b).bind fun r => c.checkSize (l.concat r)
  | .star x => (c.build x).bind fun m => c.checkSize m.star
  | .plus x => (c.build x).bind fun m => c.checkSize m.plus
  | .paren x => (c.build x).bind c.checkSize
  | .repetition x count =>
    (c.repetitionCount count).bind fun n => (c.build x).bind fun m => c.repeated n m
  | .digits text => .error (.strayCount text)

/-- Reads a regex and builds its automaton. -/
def compile (c : Compiler) (text : String) : Except Error Automaton :=
  (c.parse text).bind c.build

end Compiler

/-- The automaton of a regex. Where no alphabet is given, it is the one of the symbols that the
regex uses. -/
def compileRegex (text : String) (alphabet : Option Alphabet) (limits : Limits) :
    Except Error Automaton :=
  (Compiler.ofAlphabet (alphabet.getD (Alphabet.infer text)) limits).bind fun c => c.compile text

end RegularLanguages
