import SyntaxOutline.Node.Locate
import SyntaxOutline.Proofs.Node.Descent
import SyntaxOutline.Proofs.NodePath.Order

/-! # The way down to a cursor

The path found at an offset leads to the node found there. Every node on the way covers the offset,
also where spans do not nest: the search looks at the span of each child that it enters. -/
namespace SyntaxOutline.Node

/-- Every node that the steps lead to or through covers the offset. -/
def CoversAlong (n : Node) (offset : Nat) (steps : List Nat) : Prop :=
  ∀ passed m, passed <+: steps → n.follow? passed = some m → m.span.covers offset = true

theorem coversAlong_nil {n : Node} {offset : Nat} (h : n.span.covers offset = true) :
    n.CoversAlong offset [] := by
  intro passed m hpassed hm
  obtain rfl := List.prefix_nil.1 hpassed
  obtain rfl : n = m := by simpa [follow?] using hm
  exact h

theorem coversAlong_cons {n c : Node} {offset ordinal : Nat} {rest : List Nat}
    (h : n.span.covers offset = true) (hc : n.children[ordinal]? = some c)
    (hrest : c.CoversAlong offset rest) : n.CoversAlong offset (ordinal :: rest) := by
  intro passed m hpassed hm
  cases passed with
  | nil => exact coversAlong_nil h [] m List.nil_prefix hm
  | cons first passed =>
    obtain ⟨rfl, hrestPassed⟩ := List.cons_prefix_cons.1 hpassed
    obtain ⟨d, hd, hm⟩ := follow?_cons_eq_some.1 hm
    obtain rfl : c = d := Option.some.inj (hc.symm.trans hd)
    exact hrest passed m hrestPassed hm

theorem coveringChild?_eq_some {n c : Node} {offset ordinal : Nat}
    (h : n.coveringChild? offset = some (c, ordinal)) :
    n.children[ordinal]? = some c ∧ c.span.covers offset = true := by
  have hmem : (c, ordinal) ∈ n.children.zipIdx := List.mem_of_find?_eq_some h
  have hcovers := List.find?_some h
  exact ⟨List.mk_mem_zipIdx_iff_getElem?.1 hmem, hcovers⟩

theorem descend_of_none {n : Node} {offset : Nat} (h : n.coveringChild? offset = none)
    (path : NodePath) : n.descend path offset = (n, path) := by
  rw [descend]
  split
  next => rfl
  next hsome => cases h.symm.trans hsome

theorem descend_of_some {n c : Node} {offset ordinal : Nat}
    (h : n.coveringChild? offset = some (c, ordinal)) (path : NodePath) :
    n.descend path offset = c.descend (path.child ordinal) offset := by
  rw [descend]
  split
  next hnone => cases h.symm.trans hnone
  next hsome =>
    obtain ⟨rfl, rfl⟩ := Prod.mk.inj (Option.some.inj (h.symm.trans hsome))
    rfl

/-- From a node that covers the offset the search takes steps through nodes that cover it too. -/
theorem descend_follows {n : Node} {offset : Nat} (h : n.span.covers offset = true)
    (path : NodePath) :
    ∃ steps, (n.descend path offset).2.steps = path.steps ++ steps ∧
      n.follow? steps = some (n.descend path offset).1 ∧ n.CoversAlong offset steps := by
  induction n using Node.induction generalizing path with
  | step n ih =>
    cases hchild : n.coveringChild? offset with
    | none =>
      rw [descend_of_none hchild]
      exact ⟨[], (List.append_nil _).symm, rfl, coversAlong_nil h⟩
    | some found =>
      obtain ⟨c, ordinal⟩ := found
      obtain ⟨hc, hcovers⟩ := coveringChild?_eq_some hchild
      obtain ⟨steps, hsteps, hfollow, halong⟩ :=
        ih c (List.mem_of_getElem? hc) hcovers (path.child ordinal)
      rw [descend_of_some hchild]
      refine ⟨ordinal :: steps, ?_, follow?_cons_eq_some.2 ⟨c, hc, hfollow⟩,
        coversAlong_cons h hc halong⟩
      rw [hsteps, NodePath.child_steps_append]

theorem locate?_eq_some_iff {n : Node} {offset : Nat} {found : Node × NodePath} :
    n.locate? offset = some found ↔
      n.span.covers offset = true ∧ n.descend NodePath.root offset = found := by
  rw [locate?]
  split
  next hcovers => simp [hcovers]
  next hmiss => simp [hmiss]

theorem locate?_eq_some {n m : Node} {offset : Nat} {path : NodePath}
    (h : n.locate? offset = some (m, path)) :
    n.follow? path.steps = some m ∧ n.CoversAlong offset path.steps := by
  obtain ⟨hcovers, hdescend⟩ := locate?_eq_some_iff.1 h
  obtain ⟨steps, hsteps, hfollow, halong⟩ := descend_follows hcovers NodePath.root
  rw [hdescend] at hsteps hfollow
  obtain rfl : path.steps = steps := hsteps
  exact ⟨hfollow, halong⟩

end SyntaxOutline.Node
