/-!
# Tokens of JSON text

The scanner cuts a text into brackets, separators and literals. White space between them is dropped.

## Mechanism

A string literal is scanned into code units first: a character stands for its code point, and an
escape `\u` for its four hexadecimal digits. Then each surrogate pair among the units is joined. A
surrogate that has no partner makes the literal stand for no text, but the scan goes on behind it.

Everything that is no string, bracket, separator or white space forms a run, which must be `null`,
`true`, `false` or a number.

## Termination

Each step drops at least one character: `length_of_scanUnits` for a string literal,
`List.dropWhile` for a run.
-/

namespace RegularLanguages.Json

/-- A token of JSON text. -/
inductive Token where
  | openBrace
  | closeBrace
  | openBracket
  | closeBracket
  | colon
  | comma
  | null
  | bool (value : Bool)
  | number (literal : String)
  | string (text : Option String)
  deriving DecidableEq, Repr

/-! ## String literals -/

/-- The value of a hexadecimal digit. -/
def hexValue? (c : Char) : Option Nat :=
  if c.isDigit then some (c.toNat - '0'.toNat)
  else if 'a' ≤ c ∧ c ≤ 'f' then some (c.toNat - 'a'.toNat + 10)
  else if 'A' ≤ c ∧ c ≤ 'F' then some (c.toNat - 'A'.toNat + 10)
  else none

/-- The value of a row of hexadecimal digits. -/
def hexNumber? (cs : List Char) : Option Nat :=
  (cs.mapM hexValue?).map (List.foldl (fun value digit => 16 * value + digit) 0)

/-- The character behind a backslash that stands for one character. -/
def escapedChar? : Char → Option Char
  | '"' => some '"'
  | '\\' => some '\\'
  | '/' => some '/'
  | 'b' => some '\x08'
  | 'f' => some '\x0c'
  | 'n' => some '\n'
  | 'r' => some '\r'
  | 't' => some '\t'
  | _ => none

/-- Puts a code unit in front of those that were scanned behind it. -/
def addUnit (unit : Nat) (scanned : List Nat × List Char) : List Nat × List Char :=
  (unit :: scanned.1, scanned.2)

/-- The code units of a string literal, from behind its opening quote, and what follows the closing
one. -/
def scanUnits : List Char → Option (List Nat × List Char)
  | [] => none
  | c :: rest =>
    if c = '"' then some ([], rest)
    else if c = '\\' then
      match rest with
      | 'u' :: h₁ :: h₂ :: h₃ :: h₄ :: rest =>
        match hexNumber? [h₁, h₂, h₃, h₄] with
        | some unit => (scanUnits rest).map (addUnit unit)
        | none => none
      | e :: rest =>
        match escapedChar? e with
        | some d => (scanUnits rest).map (addUnit d.toNat)
        | none => none
      | [] => none
    else if c.toNat < 0x20 then none
    else (scanUnits rest).map (addUnit c.toNat)

/-- Putting a unit in front leaves what follows the literal as it is. -/
theorem exists_of_map_addUnit {unit : Nat} {scanned : Option (List Nat × List Char)}
    {units : List Nat} {rest : List Char} (h : scanned.map (addUnit unit) = some (units, rest)) :
    ∃ units', scanned = some (units', rest) := by
  obtain ⟨⟨units', rest'⟩, hs, he⟩ := Option.map_eq_some_iff.1 h
  obtain ⟨-, rfl⟩ := Prod.mk.inj he
  exact ⟨units', hs⟩

/-- What follows a string literal is shorter than the literal with all that follows it. -/
theorem length_of_scanUnits {cs rest : List Char} {units : List Nat}
    (h : scanUnits cs = some (units, rest)) : rest.length < cs.length := by
  fun_induction scanUnits cs generalizing units rest with
  | case2 => simp_all
  | case3 _ _ _ _ _ _ _ _ ih | case5 _ _ _ _ _ _ ih | case9 _ _ _ _ _ ih =>
    obtain ⟨units', h'⟩ := exists_of_map_addUnit h
    have := ih h'
    simp only [List.length_cons]
    omega
  | _ => exact absurd h (by simp)

/-- Whether a code unit is the first half of a surrogate pair. -/
def isHighSurrogate (unit : Nat) : Bool := 0xD800 ≤ unit && unit < 0xDC00

/-- Whether a code unit is the second half of a surrogate pair. -/
def isLowSurrogate (unit : Nat) : Bool := 0xDC00 ≤ unit && unit < 0xE000

/-- The code point of a surrogate pair. -/
def pairCodePoint (high low : Nat) : Nat := 0x10000 + (high - 0xD800) * 0x400 + (low - 0xDC00)

/-- The characters of a row of code units; none if a surrogate has no partner. -/
def joinUnits : List Nat → Option (List Char)
  | [] => some []
  | [unit] => if isHighSurrogate unit || isLowSurrogate unit then none else some [Char.ofNat unit]
  | unit :: next :: rest =>
    if isHighSurrogate unit then
      if isLowSurrogate next then
        (joinUnits rest).map (Char.ofNat (pairCodePoint unit next) :: ·)
      else none
    else if isLowSurrogate unit then none
    else (joinUnits (next :: rest)).map (Char.ofNat unit :: ·)

/-- The text of a row of code units. -/
def textOfUnits (units : List Nat) : Option String := (joinUnits units).map String.ofList

/-! ## Numbers -/

/-- What follows a row of at least one digit. -/
def afterDigits? (cs : List Char) : Option (List Char) :=
  if (cs.takeWhile Char.isDigit).isEmpty then none else some (cs.dropWhile Char.isDigit)

/-- What follows a whole number without needless zeros in front. -/
def afterInteger? : List Char → Option (List Char)
  | '0' :: rest => if (rest.takeWhile Char.isDigit).isEmpty then some rest else none
  | cs => afterDigits? cs

/-- What follows a fraction, if there is one. -/
def afterFraction? : List Char → Option (List Char)
  | '.' :: rest => afterDigits? rest
  | cs => some cs

/-- What follows an exponent, if there is one. -/
def afterExponent? : List Char → Option (List Char)
  | e :: rest =>
    if e = 'e' ∨ e = 'E' then
      match rest with
      | '+' :: digits => afterDigits? digits
      | '-' :: digits => afterDigits? digits
      | digits => afterDigits? digits
    else some (e :: rest)
  | [] => some []

/-- Whether a run of characters is a number. -/
def isNumber (cs : List Char) : Bool :=
  let magnitude :=
    match cs with
    | '-' :: rest => rest
    | _ => cs
  (((afterInteger? magnitude).bind afterFraction?).bind afterExponent?) == some []

/-! ## Scanner -/

/-- The white space of JSON. -/
def isBlank (c : Char) : Bool := c = ' ' || c = '\n' || c = '\t' || c = '\r'

/-- The token of a bracket or separator. -/
def punctuation? : Char → Option Token
  | '\x7b' => some .openBrace
  | '\x7d' => some .closeBrace
  | '[' => some .openBracket
  | ']' => some .closeBracket
  | ':' => some .colon
  | ',' => some .comma
  | _ => none

/-- Whether a character belongs to a run: a literal that is no string. -/
def isRunChar (c : Char) : Bool := !isBlank c && (punctuation? c).isNone && c ≠ '"'

/-- The token of a run. -/
def ofRun? (run : List Char) : Option Token :=
  if run = ['n', 'u', 'l', 'l'] then some .null
  else if run = ['t', 'r', 'u', 'e'] then some (.bool true)
  else if run = ['f', 'a', 'l', 's', 'e'] then some (.bool false)
  else if isNumber run then some (.number (String.ofList run))
  else none

/-- The tokens of a text. -/
def scan : List Char → Option (List Token)
  | [] => some []
  | c :: rest =>
    if isBlank c then scan rest
    else
      match punctuation? c with
      | some token => (scan rest).map (token :: ·)
      | none =>
        if c = '"' then
          match _h : scanUnits rest with
          | some (units, rest') => (scan rest').map (.string (textOfUnits units) :: ·)
          | none => none
        else
          match ofRun? (c :: rest.takeWhile isRunChar) with
          | some token => (scan (rest.dropWhile isRunChar)).map (token :: ·)
          | none => none
termination_by cs => cs.length
decreasing_by
  · simp
  · simp
  · exact Nat.lt_succ_of_lt (length_of_scanUnits _h)
  · exact Nat.lt_succ_of_le (List.dropWhile_suffix _).length_le

end RegularLanguages.Json
