import SyntaxOutline.Json.Text
import SyntaxOutline.Proofs.Json.Token

/-! # Reading written values

The text of a value reads back as that value. No bound on nesting is involved: the values that are
still open stay on the stack of the reader while an inner one is read. -/
namespace SyntaxOutline.Json

open Token (Apart Separated)

theorem apart_itemTokens (items : List Json) (rest : List Token) :
    Apart (itemTokens items rest) := by
  cases items <;> trivial

theorem apart_fieldTokens (fields : List (Option String × Json)) (rest : List Token) :
    Apart (fieldTokens fields rest) := by
  cases fields <;> trivial

mutual

theorem separated_tokens (value : Json) {rest : List Token} (hapart : Apart rest)
    (hrest : Separated rest) : Separated (tokens value rest) := by
  cases value with
  | null => exact ⟨trivial, hapart, hrest⟩
  | bool _ => exact ⟨trivial, hapart, hrest⟩
  | number _ => exact ⟨trivial, hapart, hrest⟩
  | string _ => exact hrest
  | array items =>
    cases items with
    | nil => exact hrest
    | cons item items =>
      exact separated_tokens item (apart_itemTokens items rest)
        (separated_itemTokens items hrest)
  | object fields =>
    cases fields with
    | nil => exact hrest
    | cons field fields =>
      obtain ⟨name, value⟩ := field
      exact separated_tokens value (apart_fieldTokens fields rest)
        (separated_fieldTokens fields hrest)

theorem separated_itemTokens (items : List Json) {rest : List Token} (hrest : Separated rest) :
    Separated (itemTokens items rest) := by
  cases items with
  | nil => exact hrest
  | cons item items =>
    exact separated_tokens item (apart_itemTokens items rest) (separated_itemTokens items hrest)

theorem separated_fieldTokens (fields : List (Option String × Json)) {rest : List Token}
    (hrest : Separated rest) : Separated (fieldTokens fields rest) := by
  cases fields with
  | nil => exact hrest
  | cons field fields =>
    obtain ⟨name, value⟩ := field
    exact separated_tokens value (apart_fieldTokens fields rest)
      (separated_fieldTokens fields hrest)

end

namespace Reader

/-- Where an array has just been opened, a value starts as it does anywhere else. -/
theorem run_firstItem (value : Json) (rest : List Token) (stack : List Frame) :
    (tokens value rest).foldlM step ⟨stack, .firstItem⟩ =
      (tokens value rest).foldlM step ⟨stack, .value⟩ := by
  cases value with
  | array items => cases items <;> rfl
  | object fields => cases fields <;> rfl
  | null => rfl
  | bool _ => rfl
  | number _ => rfl
  | string _ => rfl

mutual

theorem run_tokens (value : Json) (rest : List Token) (stack : List Frame) :
    (tokens value rest).foldlM step ⟨stack, .value⟩ = rest.foldlM step ⟨stack, .ended value⟩ := by
  cases value with
  | null => rfl
  | bool _ => rfl
  | number _ => rfl
  | string _ => rfl
  | array items =>
    cases items with
    | nil => rfl
    | cons item items =>
      have hitem := run_tokens item (itemTokens items rest) (.array [] :: stack)
      have hitems := run_itemTokens items rest stack [] item
      exact (run_firstItem item _ _).trans (hitem.trans hitems)
  | object fields =>
    cases fields with
    | nil => rfl
    | cons field fields =>
      obtain ⟨name, value⟩ := field
      have hvalue := run_tokens value (fieldTokens fields rest) (.object [] name :: stack)
      exact hvalue.trans (run_fieldTokens fields rest stack [] name value)

theorem run_itemTokens (items : List Json) (rest : List Token) (stack : List Frame)
    (seen : List Json) (last : Json) :
    (itemTokens items rest).foldlM step ⟨.array seen :: stack, .ended last⟩ =
      rest.foldlM step ⟨stack, .ended (.array ((last :: seen).reverse ++ items))⟩ := by
  cases items with
  | nil =>
    rw [List.append_nil]
    rfl
  | cons item items =>
    have hitem := run_tokens item (itemTokens items rest) (.array (last :: seen) :: stack)
    have hitems := run_itemTokens items rest stack (last :: seen) item
    rw [List.reverse_cons, List.append_assoc, List.singleton_append] at hitems
    exact hitem.trans hitems

theorem run_fieldTokens (fields : List (Option String × Json)) (rest : List Token)
    (stack : List Frame) (seen : List (Option String × Json)) (name : Option String)
    (last : Json) :
    (fieldTokens fields rest).foldlM step ⟨.object seen name :: stack, .ended last⟩ =
      rest.foldlM step ⟨stack, .ended (.object (((name, last) :: seen).reverse ++ fields))⟩ := by
  cases fields with
  | nil =>
    rw [List.append_nil]
    rfl
  | cons field fields =>
    obtain ⟨next, value⟩ := field
    have hvalue := run_tokens value (fieldTokens fields rest)
      (.object ((name, last) :: seen) next :: stack)
    have hfields := run_fieldTokens fields rest stack ((name, last) :: seen) next value
    rw [List.reverse_cons, List.append_assoc, List.singleton_append] at hfields
    exact hvalue.trans hfields

end

end Reader

theorem ofTokens_tokens (value : Json) : ofTokens (tokens value []) = some value := by
  rw [ofTokens, Reader.run_tokens]
  rfl

/-- The text of a value reads back as that value. -/
theorem parse_render (value : Json) : parse (render value) = some value := by
  have hseparated : Separated (tokens value []) := separated_tokens value trivial trivial
  rw [parse, render, String.toList_ofList, scan_chars hseparated, Option.bind_some,
    ofTokens_tokens]

theorem render_ne_empty (value : Json) : render value ≠ "" := by
  intro hempty
  have hread := parse_render value
  rw [hempty] at hread
  cases hread

end SyntaxOutline.Json
