import SyntaxOutline.NodePath.Text
import SyntaxOutline.Proofs.Text.Numeral

/-! # Paths and their written form

A written path reads back as the path, so different paths are written differently. The written form
of a child is that of its parent with one more part. -/
namespace SyntaxOutline.NodePath

theorem hyphen_not_mem_parts {p : NodePath} {part : List Char} (h : part ∈ p.parts) :
    '-' ∉ part := by
  rcases List.mem_cons.1 h with rfl | h
  · decide
  · obtain ⟨n, _, rfl⟩ := List.mem_map.1 h
    exact Text.not_mem_decimal (by decide) n

theorem splitOn_text (p : NodePath) : p.text.toList.splitOn '-' = p.parts := by
  rw [text, String.toList_ofList]
  exact List.splitOn_intercalate '-' (fun _ h => hyphen_not_mem_parts h) (by simp [parts])

theorem text_ne_empty (p : NodePath) : p.text ≠ "" := by
  intro h
  have hparts := p.splitOn_text
  rw [h] at hparts
  simp [parts] at hparts

/-- A written path reads back. -/
theorem ofText_text (p : NodePath) : ofText p.text = .ok p := by
  have hcanonical : (p.steps.map (Nat.toDigits 10)).find? (fun part => !Text.isCanonical part) =
      none := by
    refine List.find?_eq_none.2 fun part h => ?_
    obtain ⟨n, _, rfl⟩ := List.mem_map.1 h
    simp [Text.isCanonical_decimal]
  have hsteps : (p.steps.map (Nat.toDigits 10)).map (Nat.ofDigitChars 10 · 0) = p.steps := by
    simp [List.map_map, Function.comp_def, Nat.ofDigitChars_ten_toDigits]
  rw [ofText, splitOn_text, parts]
  simp [p.text_ne_empty, hcanonical, hsteps]

theorem text_injective {p q : NodePath} (h : p.text = q.text) : p = q := by
  have hp := p.ofText_text
  rw [h, q.ofText_text] at hp
  exact (Except.ok.inj hp).symm

theorem text_root : root.text = "0" := rfl

theorem intercalate_append (sep : List Char) {parts more : List (List Char)} (h : parts ≠ [])
    (hmore : more ≠ []) :
    sep.intercalate (parts ++ more) = sep.intercalate parts ++ sep ++ sep.intercalate more := by
  induction parts with
  | nil => exact absurd rfl h
  | cons first rest ih =>
    cases rest with
    | nil => simp [List.intercalate_cons_of_ne_nil hmore]
    | cons second rest =>
      have hrest := ih (by simp)
      simp only [List.cons_append, List.intercalate_cons_cons, List.append_assoc] at hrest ⊢
      rw [hrest]

theorem text_child (p : NodePath) (ordinal : Nat) :
    (p.child ordinal).text = p.text ++ "-" ++ toString ordinal := by
  have hparts : (p.child ordinal).parts = p.parts ++ [Nat.toDigits 10 ordinal] := by
    simp [parts, child]
  apply String.toList_inj.1
  rw [text, hparts, intercalate_append _ (by simp [parts]) (by simp), List.intercalate_singleton]
  simp [text, Nat.toString_eq_repr]

theorem toList_text_child (p : NodePath) (ordinal : Nat) :
    (p.child ordinal).text.toList = p.text.toList ++ '-' :: Nat.toDigits 10 ordinal := by
  rw [text_child]
  simp [Nat.toString_eq_repr]

end SyntaxOutline.NodePath
