import RegularLanguages.Json.Token
import RegularLanguages.Json.Writer

/-!
# Scanning what was written

The scanner cuts the text of a value into its tokens, whatever follows the text. A string literal is
read back character by character: an escape has the code point of its character, and no character is
a surrogate, so the code points are joined to the same text again. A number ends where no run can go
on, and behind a value stands a separator, a closing bracket or nothing.
-/

namespace RegularLanguages.Json

/-! ## String literals -/

theorem scanUnits_quote (rest : List Char) : scanUnits ('"' :: rest) = some ([], rest) := by
  unfold scanUnits
  exact if_pos rfl

theorem scanUnits_plain {c : Char} (hquote : c ≠ '"') (hbackslash : c ≠ '\\')
    (hcontrol : ¬ c.toNat < 0x20) (rest : List Char) :
    scanUnits (c :: rest) = (scanUnits rest).map (addUnit c.toNat) := by
  rw [scanUnits.eq_def]
  simp only [hquote, hbackslash, hcontrol, if_false]

theorem scanUnits_code {h₁ h₂ h₃ h₄ : Char} {unit : Nat}
    (h : hexNumber? [h₁, h₂, h₃, h₄] = some unit) (rest : List Char) :
    scanUnits ('\\' :: 'u' :: h₁ :: h₂ :: h₃ :: h₄ :: rest) =
      (scanUnits rest).map (addUnit unit) := by
  rw [scanUnits, h]
  rfl

theorem hexNumber?_control :
    ∀ n < 0x20, hexNumber? ['0', '0', hexDigit (n / 16), hexDigit (n % 16)] = some n := by
  decide

/-- An escaped character is scanned as its code point. -/
theorem scanUnits_escapeChar (c : Char) (rest : List Char) :
    scanUnits (escapeChar c ++ rest) = (scanUnits rest).map (addUnit c.toNat) := by
  unfold escapeChar
  split
  · next h => subst h; rfl
  next hquote =>
  split
  · next h => subst h; rfl
  next hbackslash =>
  -- the five control characters with a letter of their own
  iterate 5
    split
    · next h => subst h; rfl
  split
  · next hcontrol => exact scanUnits_code (hexNumber?_control _ hcontrol) rest
  · next hcontrol => exact scanUnits_plain hquote hbackslash hcontrol rest

theorem scanUnits_escaped (text rest : List Char) :
    scanUnits (text.flatMap escapeChar ++ '"' :: rest) = some (text.map Char.toNat, rest) := by
  induction text with
  | nil => exact scanUnits_quote rest
  | cons c text ih =>
    rw [List.flatMap_cons, List.append_assoc, scanUnits_escapeChar, ih]
    rfl

/-- No character is half a surrogate pair. -/
theorem not_isSurrogate (c : Char) :
    isHighSurrogate c.toNat = false ∧ isLowSurrogate c.toNat = false := by
  have hvalid : c.toNat < 0xD800 ∨ 0xDFFF < c.toNat ∧ c.toNat < 0x110000 := c.valid
  simp only [isHighSurrogate, isLowSurrogate, Bool.and_eq_false_iff, decide_eq_false_iff_not]
  omega

theorem joinUnits_cons (c : Char) (units : List Nat) :
    joinUnits (c.toNat :: units) = (joinUnits units).map (c :: ·) := by
  obtain ⟨hhigh, hlow⟩ := not_isSurrogate c
  cases units with
  | nil => simp [joinUnits, hhigh, hlow]
  | cons unit units => simp [joinUnits, hhigh, hlow]

theorem joinUnits_map_toNat (text : List Char) : joinUnits (text.map Char.toNat) = some text := by
  induction text with
  | nil => rfl
  | cons c text ih =>
    rw [List.map_cons, joinUnits_cons, ih]
    rfl

theorem textOfUnits_map_toNat (text : String) :
    textOfUnits (text.toList.map Char.toNat) = some text := by
  rw [textOfUnits, joinUnits_map_toNat, Option.map_some, String.ofList_toList]

theorem scan_quote {rest rest' : List Char} {units : List Nat}
    (h : scanUnits rest = some (units, rest')) :
    scan ('"' :: rest) = (scan rest').map (.string (textOfUnits units) :: ·) := by
  have hblank : isBlank '"' = false := rfl
  have hpunctuation : punctuation? '"' = none := rfl
  rw [scan, hblank, hpunctuation]
  simp only [Bool.false_eq_true, if_false, if_true]
  split
  · next units' rest'' h' =>
    obtain ⟨rfl, rfl⟩ := Prod.mk.inj (Option.some.inj (h.symm.trans h'))
    rfl
  · next h' =>
    rw [h] at h'
    cases h'

/-- **A string literal is scanned as its text.** Half a surrogate pair stands for no text. -/
theorem scan_renderText (text : Option String) (rest : List Char) :
    scan (renderText text ++ rest) = (scan rest).map (.string text :: ·) := by
  cases text with
  | none =>
    have hunits : scanUnits ('\\' :: 'u' :: 'd' :: '8' :: '0' :: '0' :: '"' :: rest) =
        some ([0xD800], rest) := by
      have hcode : hexNumber? ['d', '8', '0', '0'] = some 0xD800 := rfl
      rw [scanUnits_code hcode, scanUnits_quote]
      rfl
    exact scan_quote hunits
  | some text =>
    have hunits := scanUnits_escaped text.toList rest
    simp only [renderText, List.cons_append, List.append_assoc, List.nil_append]
    rw [scan_quote hunits, textOfUnits_map_toNat]

/-! ## Separators and runs -/

/-- In front of the rest, the text is scanned as the tokens. -/
def Scans (text : List Char) (ts : List Token) (rest : List Char) : Prop :=
  scan (text ++ rest) = (scan rest).map (ts ++ ·)

section Scans

variable {text text' rest : List Char} {ts ts' : List Token}

theorem scans_nil (rest : List Char) : Scans [] [] rest := by
  simp [Scans]

theorem Scans.append (h : Scans text ts (text' ++ rest)) (h' : Scans text' ts' rest) :
    Scans (text ++ text') (ts ++ ts') rest := by
  unfold Scans at h h' ⊢
  rw [List.append_assoc, h, h', Option.map_map]
  simp only [Function.comp_def, List.append_assoc]

theorem scans_punctuation {c : Char} {token : Token} (hblank : isBlank c = false)
    (h : punctuation? c = some token) (rest : List Char) : Scans [c] [token] rest := by
  unfold Scans
  rw [List.singleton_append, scan, hblank, h]
  rfl

theorem Scans.cons {token : Token} (h : Scans text ts rest) (c : Char)
    (hblank : isBlank c = false) (hc : punctuation? c = some token) :
    Scans (c :: text) (token :: ts) rest :=
  (scans_punctuation hblank hc (text ++ rest)).append h

theorem Scans.key (h : Scans text ts rest) (key : Option String) :
    Scans (renderText key ++ text) (.string key :: ts) rest := by
  have hkey : Scans (renderText key) [.string key] (text ++ rest) := scan_renderText key _
  exact hkey.append h

end Scans

/-- A run does not go on here. -/
def Ends (rest : List Char) : Prop := ∀ c ∈ rest.head?, isRunChar c = false

theorem ends_nil : Ends [] := fun _ h => nomatch h

theorem ends_cons {c : Char} (h : isRunChar c = false) (rest : List Char) : Ends (c :: rest) := by
  intro d hd
  obtain rfl := Option.some.inj hd
  exact h

theorem Ends.split {run rest : List Char} (hrest : Ends rest)
    (hrun : ∀ c ∈ run, isRunChar c = true) :
    (run ++ rest).takeWhile isRunChar = run ∧ (run ++ rest).dropWhile isRunChar = rest := by
  rw [List.takeWhile_append_of_pos hrun, List.dropWhile_append_of_pos hrun]
  cases rest with
  | nil => simp
  | cons c rest =>
    have hc : isRunChar c = false := hrest c rfl
    simp [hc]

theorem scans_run {c : Char} {run rest : List Char} {token : Token}
    (hrun : ∀ d ∈ c :: run, isRunChar d = true) (htoken : ofRun? (c :: run) = some token)
    (hrest : Ends rest) : Scans (c :: run) [token] rest := by
  obtain ⟨hc, htail⟩ := List.forall_mem_cons.mp hrun
  obtain ⟨htake, hdrop⟩ := hrest.split htail
  simp only [isRunChar, Bool.and_eq_true, Bool.not_eq_true', Option.isNone_iff_eq_none,
    decide_eq_true_eq] at hc
  obtain ⟨⟨hblank, hpunctuation⟩, hquote⟩ := hc
  unfold Scans
  rw [List.cons_append, scan, hblank, hpunctuation]
  simp only [Bool.false_eq_true, if_false, if_neg hquote, htake, hdrop, htoken]
  rfl

/-! ## Values -/

mutual

/-- The tokens of a value. -/
def tokens : Json → List Token
  | null => [.null]
  | bool value => [.bool value]
  | number literal => [.number literal]
  | string text => [.string text]
  | array [] => [.openBracket, .closeBracket]
  | array (item :: rest) => .openBracket :: tokens item ++ tokensOfItems rest ++ [.closeBracket]
  | object [] => [.openBrace, .closeBrace]
  | object ((key, value) :: rest) =>
    .openBrace :: .string key :: .colon :: tokens value ++ tokensOfMembers rest ++ [.closeBrace]

/-- The tokens of further items of a list. -/
def tokensOfItems : List Json → List Token
  | [] => []
  | item :: rest => .comma :: tokens item ++ tokensOfItems rest

/-- The tokens of further members of an object. -/
def tokensOfMembers : List (Option String × Json) → List Token
  | [] => []
  | (key, value) :: rest =>
    .comma :: .string key :: .colon :: tokens value ++ tokensOfMembers rest

end

/-- The scanner takes the literal for one number. -/
structure IsNumeral (literal : String) : Prop where
  number : isNumber literal.toList = true
  run : ∀ c ∈ literal.toList, isRunChar c = true

/-- All numbers among the tokens are numerals. -/
def Numeric (ts : List Token) : Prop := ∀ literal, .number literal ∈ ts → IsNumeral literal

theorem numeric_append {ts ts' : List Token} : Numeric (ts ++ ts') ↔ Numeric ts ∧ Numeric ts' := by
  simp only [Numeric, List.mem_append, or_imp, forall_and]

theorem numeric_cons {token : Token} {ts : List Token} (h : ∀ literal, token ≠ .number literal) :
    Numeric (token :: ts) ↔ Numeric ts := by
  unfold Numeric
  simp only [List.mem_cons, (h _).symm, false_or]

theorem numeric_nil : Numeric [] := fun _ h => nomatch h

theorem numeric_tokensOfItems {items : List Json} :
    Numeric (tokensOfItems items) ↔ ∀ item ∈ items, Numeric item.tokens := by
  induction items with
  | nil => simp [tokensOfItems, numeric_nil]
  | cons item items ih => simp [tokensOfItems, numeric_append, numeric_cons, ih]

theorem numeric_tokensOfMembers {members : List (Option String × Json)} :
    Numeric (tokensOfMembers members) ↔ ∀ member ∈ members, Numeric member.2.tokens := by
  induction members with
  | nil => simp [tokensOfMembers, numeric_nil]
  | cons member members ih =>
    obtain ⟨key, value⟩ := member
    simp only [tokensOfMembers, numeric_append, List.forall_mem_cons, ih]
    simp [numeric_cons]

theorem numeric_array {items : List Json} :
    Numeric (array items).tokens ↔ ∀ item ∈ items, Numeric item.tokens := by
  cases items with
  | nil => simp [tokens, numeric_cons, numeric_nil]
  | cons item items =>
    simp [tokens, numeric_append, numeric_cons, numeric_nil, numeric_tokensOfItems]

theorem numeric_object {members : List (Option String × Json)} :
    Numeric (object members).tokens ↔ ∀ member ∈ members, Numeric member.2.tokens := by
  cases members with
  | nil => simp [tokens, numeric_cons, numeric_nil]
  | cons member members =>
    obtain ⟨key, value⟩ := member
    simp only [tokens, numeric_append, numeric_tokensOfMembers, List.forall_mem_cons]
    simp [numeric_cons, numeric_nil]

theorem IsNumeral.ofRun?_eq {literal : String} (h : IsNumeral literal) :
    ofRun? literal.toList = some (.number literal) := by
  have hne : ∀ run, isNumber run = false → literal.toList ≠ run := by
    rintro run hrun rfl
    rw [h.number] at hrun
    cases hrun
  rw [ofRun?, if_neg (hne _ (by decide)), if_neg (hne _ (by decide)), if_neg (hne _ (by decide)),
    if_pos h.number, String.ofList_toList]

theorem IsNumeral.scans {literal : String} (h : IsNumeral literal) {rest : List Char}
    (hrest : Ends rest) : Scans literal.toList [.number literal] rest := by
  have htoken := h.ofRun?_eq
  have hrun := h.run
  cases hchars : literal.toList with
  | nil =>
    rw [hchars] at htoken
    cases htoken
  | cons c run =>
    rw [hchars] at htoken hrun
    exact scans_run hrun htoken hrest

theorem ends_renderItems (items : List Json) {rest : List Char} (hrest : Ends rest) :
    Ends (renderItems items ++ rest) := by
  cases items with
  | nil => exact hrest
  | cons item items => exact ends_cons rfl _

theorem ends_renderMembers (members : List (Option String × Json)) {rest : List Char}
    (hrest : Ends rest) : Ends (renderMembers members ++ rest) := by
  cases members with
  | nil => exact hrest
  | cons member members => exact ends_cons rfl _

mutual

/-- **The text of a value is scanned as its tokens**, if no run goes on behind it. -/
theorem scans_renderChars : ∀ (v : Json), Numeric v.tokens → ∀ rest, Ends rest →
    Scans (renderChars v) v.tokens rest
  | null, _, _, hrest => scans_run (List.all_eq_true.mp (by decide)) rfl hrest
  | bool true, _, _, hrest => scans_run (List.all_eq_true.mp (by decide)) rfl hrest
  | bool false, _, _, hrest => scans_run (List.all_eq_true.mp (by decide)) rfl hrest
  | number literal, h, _, hrest => (h literal (List.mem_singleton_self _)).scans hrest
  | string text, _, rest, _ => scan_renderText text rest
  | array [], _, rest, _ => (scans_punctuation rfl rfl rest).cons '[' rfl rfl
  | array (item :: items), h, rest, _ => by
    have hend : Ends (']' :: rest) := ends_cons rfl rest
    obtain ⟨hitem, hitems⟩ := List.forall_mem_cons.mp (numeric_array.mp h)
    have hfirst := scans_renderChars item hitem _ (ends_renderItems items hend)
    have hothers := (hfirst.cons '[' rfl rfl).append (scans_renderItems items hitems _ hend)
    exact hothers.append (scans_punctuation rfl rfl rest)
  | object [], _, rest, _ => (scans_punctuation rfl rfl rest).cons '\x7b' rfl rfl
  | object ((key, value) :: members), h, rest, _ => by
    have hend : Ends ('\x7d' :: rest) := ends_cons rfl rest
    obtain ⟨hvalue, hmembers⟩ := List.forall_mem_cons.mp (numeric_object.mp h)
    have hfirst := scans_renderChars value hvalue _ (ends_renderMembers members hend)
    have hmember := ((hfirst.cons ':' rfl rfl).key key).cons '\x7b' rfl rfl
    have hothers := hmember.append (scans_renderMembers members hmembers _ hend)
    exact hothers.append (scans_punctuation rfl rfl rest)

theorem scans_renderItems : ∀ (items : List Json), (∀ item ∈ items, Numeric item.tokens) → ∀ rest,
    Ends rest → Scans (renderItems items) (tokensOfItems items) rest
  | [], _, rest, _ => scans_nil rest
  | item :: items, h, rest, hrest => by
    obtain ⟨hitem, hitems⟩ := List.forall_mem_cons.mp h
    have hfirst := scans_renderChars item hitem _ (ends_renderItems items hrest)
    exact (hfirst.cons ',' rfl rfl).append (scans_renderItems items hitems _ hrest)

theorem scans_renderMembers : ∀ (members : List (Option String × Json)),
    (∀ member ∈ members, Numeric member.2.tokens) → ∀ rest, Ends rest →
      Scans (renderMembers members) (tokensOfMembers members) rest
  | [], _, rest, _ => scans_nil rest
  | (key, value) :: members, h, rest, hrest => by
    obtain ⟨hvalue, hmembers⟩ := List.forall_mem_cons.mp h
    have hfirst := scans_renderChars value hvalue _ (ends_renderMembers members hrest)
    have hmember := ((hfirst.cons ':' rfl rfl).key key).cons ',' rfl rfl
    exact hmember.append (scans_renderMembers members hmembers _ hrest)

end

end RegularLanguages.Json
