import SyntaxOutline.Proofs.Rows.Folding

/-! # What shows after an operation on many nodes

With every node open that has children the whole tree shows, and with none open the root alone. In
between, a tree that is open above a level shows its nodes down to that level, since the nodes above
a node are of all smaller depths. To show one path, the nodes above it have to be open and no
others. Opening or closing a subtree touches the paths of that subtree and no others. -/
namespace SyntaxOutline

namespace Listing

variable {tree : Option Node} {e f : Expansion} {path q : NodePath} {depth : Nat}

theorem visiblePaths_expandAll (tree : Option Node) (e : Expansion) :
    (ofTree tree).visiblePaths (e.expandAll (ofTree tree)) = (ofTree tree).paths := by
  rw [visiblePaths_eq_filter, List.filter_eq_self]
  intro q hq
  refine Expansion.opens_iff.2 fun a ha => ?_
  exact Expansion.mem_expandAll.2 (hasChildren_of_mem_ancestors hq ha)

theorem visiblePaths_collapseAll (n : Node) (e : Expansion) :
    (ofTree (some n)).visiblePaths e.collapseAll = [NodePath.root] := by
  refine NodePath.eq_of_ascending (ascending_visiblePaths (some n) e.collapseAll)
    (List.pairwise_singleton _ _) fun q => ?_
  rw [List.mem_singleton]
  constructor
  · intro hq
    by_contra hne
    have hroot := NodePath.root_mem_ancestors hne
    exact not_mem_visiblePaths hroot (e.not_mem_collapseAll NodePath.root) hq
  · rintro rfl
    exact root_mem_visiblePaths n e.collapseAll

/-- The deepest node above a path is one level above it. -/
theorem opens_expandToDepth_iff (hdepth : depth ≤ levelLimit) (hq : q ∈ (ofTree tree).paths) :
    (e.collapseAll.expandToDepth (ofTree tree) depth).opens q = true ↔ q.depth ≤ depth := by
  have hmem : ∀ a ∈ q.ancestors,
      (a ∈ e.collapseAll.expandToDepth (ofTree tree) depth ↔ a.depth < depth) := by
    intro a ha
    have hlevel : min a.depth levelLimit < depth ↔ a.depth < depth := by omega
    rw [Expansion.mem_expandToDepth, hlevel, hasChildren_of_mem_ancestors hq ha]
    simp [Expansion.not_mem_collapseAll]
  rw [Expansion.opens_iff]
  constructor
  · intro hall
    induction q using NodePath.induction with
    | root => exact Nat.zero_le depth
    | child above ordinal _ =>
      have habove : above ∈ (above.child ordinal).ancestors := by simp [NodePath.ancestors_child]
      rw [NodePath.depth_child]
      exact (hmem above habove).1 (hall above habove)
  · intro hle a ha
    exact (hmem a ha).2 (Nat.lt_of_lt_of_le (NodePath.depth_lt_of_mem_ancestors ha) hle)

theorem visiblePaths_expandToDepth (tree : Option Node) (e : Expansion)
    (hdepth : depth ≤ levelLimit) :
    (ofTree tree).visiblePaths (e.collapseAll.expandToDepth (ofTree tree) depth) =
      (ofTree tree).paths.filter fun q => q.depth ≤ depth := by
  rw [visiblePaths_eq_filter]
  refine List.filter_congr fun q hq => ?_
  rw [Bool.eq_iff_iff, opens_expandToDepth_iff hdepth hq, decide_eq_true_iff]

theorem mem_visiblePaths_expandTo (e : Expansion) (hpath : path ∈ (ofTree tree).paths) :
    path ∈ (ofTree tree).visiblePaths (e.expandTo path) :=
  mem_visiblePaths_iff.2 ⟨hpath, fun _ ha => Expansion.mem_expandTo.2 (.inl ha)⟩

/-- Where a path shows, all is expanded that has to be. -/
theorem expandTo_subset (hsub : e ⊆ f) (hshows : path ∈ (ofTree tree).visiblePaths f) :
    e.expandTo path ⊆ f := by
  intro q hq
  rcases Expansion.mem_expandTo.1 hq with habove | hmem
  · exact (mem_visiblePaths_iff.1 hshows).2 q habove
  · exact hsub q hmem

/-- Whatever was expanded before, expanding all nodes shows the tree, and collapsing all of them
shows the root; expanding from there to a depth shows the nodes down to that depth. To expand to a
path is to add as little as makes it show. Expanding a subtree adds its nodes with children, and
collapsing it drops its nodes, and no other path is added or dropped. -/
theorem bulk_operations_show (n : Node) (e : Expansion) :
    let l := ofTree (some n)
    l.visiblePaths (e.expandAll l) = l.paths ∧
      l.visiblePaths e.collapseAll = [NodePath.root] ∧
      (∀ depth ≤ levelLimit, l.visiblePaths (e.collapseAll.expandToDepth l depth) =
        l.paths.filter fun q => q.depth ≤ depth) ∧
      (∀ path ∈ l.paths, path ∈ l.visiblePaths (e.expandTo path) ∧ e ⊆ e.expandTo path ∧
        ∀ f, e ⊆ f → path ∈ l.visiblePaths f → e.expandTo path ⊆ f) ∧
      ∀ path : NodePath, path.depth < levelLimit →
        (∀ q, q ∈ e.expandSubtree l path ↔ q ∈ e ∨
          (q ∈ l.paths ∧ (path = q ∨ path.isAncestorOf q = true)) ∧ n.Branches q) ∧
        ∀ q, q ∈ e.collapseSubtree l path ↔
          q ∈ e ∧ ¬ (q ∈ l.paths ∧ (path = q ∨ path.isAncestorOf q = true)) := by
  intro l
  refine ⟨visiblePaths_expandAll (some n) e, visiblePaths_collapseAll n e,
    fun depth => visiblePaths_expandToDepth (some n) e,
    fun path hpath => ⟨mem_visiblePaths_expandTo e hpath, e.subset_expandTo path,
      fun f => expandTo_subset⟩,
    fun path hdepth => ⟨fun q => ?_, fun q => ?_⟩⟩
  · rw [Expansion.mem_expandSubtree, mem_subtree_iff hdepth, hasChildren_ofTree_iff,
      NodePath.prefix_steps_iff, or_comm]
  · rw [Expansion.mem_collapseSubtree, mem_subtree_iff hdepth, NodePath.prefix_steps_iff]

/-- A path that is not listed stays expanded, whatever is done to a subtree. -/
theorem bulk_operations_show_sample :
    let l := ofTree (some Node.sample)
    let e : Expansion := .ofList [⟨[1]⟩, ⟨[7]⟩]
    let f : Expansion := .ofList [⟨[]⟩, ⟨[0]⟩, ⟨[1]⟩, ⟨[7]⟩]
    (1 ≤ levelLimit ∧
        l.visiblePaths (e.collapseAll.expandToDepth l 1) = [⟨[]⟩, ⟨[0]⟩, ⟨[1]⟩]) ∧
      (⟨[1, 0]⟩ ∈ l.paths ∧ ⟨[1, 0]⟩ ∈ l.visiblePaths (e.expandTo ⟨[1, 0]⟩) ∧
        e ⊆ f ∧ ⟨[1, 0]⟩ ∈ l.visiblePaths f ∧ e.expandTo ⟨[1, 0]⟩ ⊆ f) ∧
      (⟨[1]⟩ : NodePath).depth < levelLimit ∧
      ∀ q, q ∈ e.collapseSubtree l ⟨[1]⟩ ↔ q = ⟨[7]⟩ := by
  intro l e f
  obtain ⟨_, _, hlevels, hleast, hsubtree⟩ := bulk_operations_show Node.sample e
  have hpath : ⟨[1, 0]⟩ ∈ l.paths := by simp [l, paths_sample]
  have hsub : e ⊆ f := by
    intro q hq
    simp only [e, f, Expansion.mem_ofList, List.mem_cons] at hq ⊢
    exact .inr (.inr hq)
  have hshows : ⟨[1, 0]⟩ ∈ l.visiblePaths f := by
    refine mem_visiblePaths_iff.2 ⟨hpath, ?_⟩
    simp [NodePath.ancestors, NodePath.depth, List.range_succ, f, Expansion.mem_ofList]
  obtain ⟨hshown, _, hmin⟩ := hleast ⟨[1, 0]⟩ hpath
  refine ⟨⟨by decide, ?_⟩, ⟨hpath, hshown, hsub, hshows, hmin f hsub hshows⟩, by decide,
    fun q => ?_⟩
  · rw [hlevels 1 (by decide), paths_sample]
    rfl
  · rw [(hsubtree ⟨[1]⟩ (by decide)).2 q, paths_sample, Expansion.mem_ofList]
    by_cases hq : q = ⟨[1]⟩
    · simp [hq]
    · simp +contextual [hq, NodePath.isAncestorOf]

end Listing

end SyntaxOutline
