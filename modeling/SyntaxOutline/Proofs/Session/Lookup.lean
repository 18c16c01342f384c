import SyntaxOutline.Proofs.Session.Coherence

/-! # Two ways to look a path up

A path leads down the tree by its ordinals, and it is a key of the listing. A step that is too large
for a word is no ordinal: the way down passes over it, and ends at the node that is listed under the
path without such steps. The listing has no entry for a path with such a step. -/
namespace SyntaxOutline.Session

/-- Selecting succeeds just when the way down the tree ends at a node. -/
theorem select_eq_at?_isSome {s : Session} {n : Node} (htree : s.tree = some n) (path : NodePath) :
    (s.select path).2 = (n.at? path).isSome := by
  have hnode : s.node? path = n.at? path := by rw [node?, htree]; rfl
  rw [← hnode]
  cases h : s.node? path with
  | none => rw [select_of_no_node h]; rfl
  | some node => rw [select_of_node? h]; rfl

/-- The way down finds what is listed under the path without the steps that it passes over. So the
two ways agree on a path unless it has such steps and still leads to a node. -/
theorem lookup_agrees_iff (n : Node) (path : NodePath) :
    n.at? path = ((Listing.ofTree (some n)).get? ⟨path.ordinals⟩).map (·.node) ∧
      (n.Fits →
        (n.at? path = ((Listing.ofTree (some n)).get? path).map (·.node) ↔
          (∀ step ∈ path.steps, step < Text.wordLimit) ∨ n.at? path = none)) ∧
      ∀ s : Session, s.tree = some n →
        (s.select path).2 = (Listing.ofTree (some n)).contains ⟨path.ordinals⟩ := by
  refine ⟨Listing.at?_eq_get?_ordinals n path,
    fun hfits => Listing.at?_eq_get?_iff hfits path, fun s htree => ?_⟩
  rw [select_eq_at?_isSome htree, Listing.at?_eq_get?_ordinals, Option.isSome_map,
    Listing.contains_eq_isSome]

/-- A path with a step beyond the words, which is not listed, leads to the root and is selected. -/
theorem select_passes_over_long_step :
    let n : Node := { kind := "File", span := ⟨0, 10⟩ }
    let path : NodePath := ⟨[18446744073709551616]⟩
    NodePath.ofText "0-18446744073709551616" = .ok path ∧
      (n.at? path).isSome = true ∧
      (Listing.ofTree (some n)).contains path = false ∧
      (((start {}).applyTree n).select path).2 = true := by
  intro n path
  have htext : path.text = "0-18446744073709551616" := by decide +kernel
  refine ⟨?_, rfl, by decide +kernel, rfl⟩
  rw [← htext]
  exact path.ofText_text

end SyntaxOutline.Session
