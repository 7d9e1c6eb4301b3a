import RegularLanguages.Grammar.Draft

/-!
# The grammar of regexes

The grammar has one layer for each strength of binding and one rule for each symbol of the
alphabet:

* `U -> C '|' U`, `'|' U`, nothing, `C`: unions
* `C -> O C`, `O`: concatenations
* `O -> R '?'`, `R`: options
* `R -> A '*'`, `A '+'`, `A '^' I`, `A`: repetitions
* `A -> '(' U ')'`, `L`: atoms
* `I -> D`, `I D` and `D -> '0'` to `'9'`: counts
* `L -> c` for each symbol `c`

`L` is declared, so the alphabet may be empty. A symbol that is also a metacharacter can give a text
several trees.
-/

namespace RegularLanguages.Regex

/-- The rules that do not depend on the alphabet. -/
def fixedRules : List Rule :=
  [⟨"U", [.nonterminal "C", .terminal '|', .nonterminal "U"], .union⟩,
    ⟨"U", [.terminal '|', .nonterminal "U"], .emptyUnion⟩,
    ⟨"U", [], .empty⟩,
    ⟨"U", [.nonterminal "C"], .forward⟩,
    ⟨"C", [.nonterminal "O", .nonterminal "C"], .concatenation⟩,
    ⟨"C", [.nonterminal "O"], .forward⟩,
    ⟨"O", [.nonterminal "R", .terminal '?'], .option⟩,
    ⟨"O", [.nonterminal "R"], .forward⟩,
    ⟨"R", [.nonterminal "A", .terminal '*'], .star⟩,
    ⟨"R", [.nonterminal "A", .terminal '+'], .plus⟩,
    ⟨"R", [.nonterminal "A", .terminal '^', .nonterminal "I"], .repetition⟩,
    ⟨"R", [.nonterminal "A"], .forward⟩,
    ⟨"A", [.terminal '(', .nonterminal "U", .terminal ')'], .paren⟩,
    ⟨"A", [.nonterminal "L"], .forward⟩,
    ⟨"I", [.nonterminal "D"], .digits⟩,
    ⟨"I", [.nonterminal "I", .nonterminal "D"], .digits⟩]

/-- The ASCII digits. -/
def decimalDigits : List Char := ['0', '1', '2', '3', '4', '5', '6', '7', '8', '9']

/-- One rule for each digit. -/
def digitRules : List Rule := decimalDigits.map fun c => ⟨"D", [.terminal c], .digits⟩

/-- One rule for each symbol of the alphabet. -/
def symbolRules (alphabet : Alphabet) : List Rule :=
  alphabet.symbols.map fun c => ⟨"L", [.terminal c], .terminal⟩

/-- The rules for regexes over an alphabet. -/
def draft (alphabet : Alphabet) : Draft :=
  ⟨"U", fixedRules ++ digitRules ++ symbolRules alphabet, ["L"]⟩

/-- The grammar of regexes over an alphabet. -/
def grammar (alphabet : Alphabet) : Except Error Grammar := (draft alphabet).build

end RegularLanguages.Regex
