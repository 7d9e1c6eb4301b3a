import RegularLanguages.Error
import RegularLanguages.Grammar.Tree
import RegularLanguages.Regex.Basic

/-!
# From parse trees to regexes

Each node of a parse tree says by its kind what it stands for. Its operands are its children that
are nodes; leaves matter only below a terminal or a count.

## Mechanism

`ofNode` joins what the operands stand for. It looks at their number first, and only then at what
became of them, from left to right. `ofTree` and `ofOperands` walk down the tree together.
-/

namespace RegularLanguages.Regex

/-- The only operand, wrapped. -/
def unary (wrap : Regex → Regex) : List (Except Error Regex) → Except Error Regex
  | [operand] => operand.map wrap
  | _ => .error (.wrongTree .expectedOneOperand)

/-- The two operands, joined. -/
def binary (join : Regex → Regex → Regex) : List (Except Error Regex) → Except Error Regex
  | [left, right] => left.bind fun a => right.map (join a)
  | _ => .error (.wrongTree .expectedTwoOperands)

/-- The regex of a node, by its kind, the characters at its leaves and the regexes of its
operands. -/
def ofNode (kind : Kind) (leaves : List Char) (operands : List (Except Error Regex)) :
    Except Error Regex :=
  match kind with
  | .union => binary union operands
  | .concatenation => binary concatenation operands
  | .repetition => binary repetition operands
  | .emptyUnion => unary emptyUnion operands
  | .option => unary option operands
  | .star => unary star operands
  | .plus => unary plus operands
  | .paren => unary paren operands
  | .forward => unary id operands
  | .empty => .ok empty
  | .terminal =>
    match leaves with
    | [c] => .ok (terminal c)
    | _ => .error (.wrongTree .terminalNotOneSymbol)
  | .digits => .ok (digits (String.ofList leaves))

mutual

/-- The regex that a parse tree stands for. -/
def ofTree : ParseTree → Except Error Regex
  | .leaf _ => .error (.wrongTree .unexpectedTerminal)
  | .node _ kind children => ofNode kind (ParseTree.leavesOfAll children) (ofOperands children)

/-- The regexes of those trees of a row that are nodes. -/
def ofOperands : List ParseTree → List (Except Error Regex)
  | [] => []
  | .leaf _ :: rest => ofOperands rest
  | .node rule kind children :: rest => ofTree (.node rule kind children) :: ofOperands rest

end

end RegularLanguages.Regex
