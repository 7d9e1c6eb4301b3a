import RegularLanguages.Diagram.Text
import RegularLanguages.Limits.Text
import RegularLanguages.Proofs.Json.RoundTrip
import RegularLanguages.Proofs.Lists

/-!
# Diagrams and limits come back from their text

A record is read key by key. The keys of a written record are distinct and all known, so each key
finds its own value again, and an alphabet that was left out is found absent. The rest is the round
trip of JSON texts.
-/

namespace RegularLanguages

open Json

/-! ## Arrows -/

theorem Arrow.ofJson?_toJson (arrow : Arrow) : Arrow.ofJson? arrow.toJson = some arrow := by
  rfl

theorem Arrow.numeric_toJson (arrow : Arrow) : Numeric arrow.toJson.tokens := by
  rw [Arrow.toJson, numeric_object]
  simp [tokens, numeric_cons, numeric_nil]

/-! ## Diagrams -/

namespace Diagram

theorem texts?_jsonOfTexts (texts : List String) : (jsonOfTexts texts).texts? = some texts := by
  have htext : ∀ text, text? (.string (some text)) = some text := fun _ => rfl
  exact mapM_map_eq_some htext texts

theorem numeric_jsonOfTexts (texts : List String) : Numeric (jsonOfTexts texts).tokens := by
  unfold jsonOfTexts
  rw [numeric_array]
  simp [tokens, numeric_cons, numeric_nil]

/-- The alphabet is found where it was written, and nowhere else. -/
theorem fields?_toJson (d : Diagram) : d.toJson.fields? keys =
    some [d.alphabet.map jsonOfTexts, some (jsonOfTexts d.states), some (.string (some d.start)),
      some (jsonOfTexts d.accepting), some (.array (d.arrows.map Arrow.toJson))] := by
  unfold toJson
  cases d.alphabet with
  | none => rfl
  | some symbols => rfl

/-- An absent alphabet stays absent, and a declared one stays declared, also if it is empty. -/
theorem declared?_map_jsonOfTexts (alphabet : Option (List String)) :
    declared? (alphabet.map jsonOfTexts) = some alphabet := by
  cases alphabet with
  | none => rfl
  | some symbols => exact congrArg (Option.map some) (texts?_jsonOfTexts symbols)

theorem arrows?_toJson (arrows : List Arrow) :
    arrows? (some (.array (arrows.map Arrow.toJson))) = some arrows :=
  mapM_map_eq_some Arrow.ofJson?_toJson arrows

theorem ofJson?_toJson (d : Diagram) : ofJson? d.toJson = some d := by
  have hnames : names? (some (jsonOfTexts d.accepting)) = some d.accepting :=
    texts?_jsonOfTexts d.accepting
  simp only [ofJson?, fields?_toJson, declared?_map_jsonOfTexts, texts?_jsonOfTexts, hnames,
    arrows?_toJson, text?, Option.bind_some, Option.map_some]

theorem numeric_toJson (d : Diagram) : Numeric d.toJson.tokens := by
  have halphabet : ∀ member ∈ alphabetMembers d.alphabet, Numeric member.2.tokens := by
    cases d.alphabet with
    | none => exact fun _ h => nomatch h
    | some symbols =>
      intro member hmember
      obtain rfl := List.mem_singleton.mp hmember
      exact numeric_jsonOfTexts symbols
  have harrows : Numeric (Json.array (d.arrows.map Arrow.toJson)).tokens := by
    rw [numeric_array, List.forall_mem_map]
    exact fun arrow _ => arrow.numeric_toJson
  have hstart : Numeric (Json.string (some d.start)).tokens :=
    (numeric_cons fun _ => Token.noConfusion).mpr numeric_nil
  rw [toJson, numeric_object, List.forall_mem_append]
  simp only [List.forall_mem_cons]
  exact ⟨halphabet, numeric_jsonOfTexts _, hstart, numeric_jsonOfTexts _, harrows,
    fun _ h => nomatch h⟩

end Diagram

/-! ## Limits -/

namespace Limits

theorem ofJson?_toJson (limits : Limits) : ofJson? limits.toJson = some limits := by
  have hfields : limits.toJson.fields? keys =
      some [some (jsonOfLimit limits.maxRepetition), some (jsonOfLimit limits.maxStates)] := rfl
  have hlimit : ∀ standard n, limit? standard (some (jsonOfLimit n)) = some n :=
    fun _ n => uint32?_toString n
  simp only [ofJson?, hfields, hlimit, Option.bind_some, Option.map_some]

theorem numeric_jsonOfLimit (n : UInt32) : Numeric (jsonOfLimit n).tokens := by
  intro literal h
  obtain rfl := Token.number.inj (List.mem_singleton.mp h)
  exact isNumeral_toString n.toNat

theorem numeric_toJson (limits : Limits) : Numeric limits.toJson.tokens := by
  rw [toJson, numeric_object]
  simp only [List.forall_mem_cons]
  exact ⟨numeric_jsonOfLimit _, numeric_jsonOfLimit _, fun _ h => nomatch h⟩

end Limits

/-! ## Texts -/

theorem Diagram.parse_render (d : Diagram) : Diagram.parse d.render = .ok d := by
  rw [Diagram.parse, Diagram.render, parse?_render _ d.numeric_toJson, Option.bind_some,
    Diagram.ofJson?_toJson]

theorem Limits.parse_render (limits : Limits) : Limits.parse limits.render = .ok limits := by
  rw [Limits.parse, Limits.render, parse?_render _ limits.numeric_toJson, Option.bind_some,
    Limits.ofJson?_toJson]

/-- **Diagrams and limits are read back from their texts**, whatever characters the names have and
however large the limits are. So a diagram without an alphabet is never written like one that
declares an empty alphabet. -/
theorem records_round_trip :
    (∀ d : Diagram, Diagram.parse d.render = .ok d) ∧
      (∀ d : Diagram, Diagram.render { d with alphabet := none } ≠
        Diagram.render { d with alphabet := some [] }) ∧
      ∀ limits : Limits, Limits.parse limits.render = .ok limits := by
  refine ⟨Diagram.parse_render, fun d heq => ?_, Limits.parse_render⟩
  have habsent := Diagram.parse_render { d with alphabet := none }
  rw [heq, Diagram.parse_render] at habsent
  cases Diagram.mk.inj (Except.ok.inj habsent) |>.1

end RegularLanguages
