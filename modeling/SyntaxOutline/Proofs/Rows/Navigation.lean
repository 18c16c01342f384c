import SyntaxOutline.Proofs.Rows.Folding
import SyntaxOutline.Proofs.Rows.Steps

/-! # Rows and the tree that they show

The row under an expanded one is that of its first child, since nothing in the tree lies between the
two. Under a row that is not expanded nothing shows that is below it in the tree. The row of the
parent stands above. So steps along the rows, steps by the path and steps by the listing agree. -/
namespace SyntaxOutline.Listing

variable {tree : Option Node} {e : Expansion} {path parent q : NodePath} {row : Row}

/-- A row is for a path that shows, and is marked if the path is an expanded node with children. -/
theorem marked_of_mem_rows (hrow : row ∈ (ofTree tree).rows e) :
    row.path ∈ (ofTree tree).visiblePaths e ∧
      row.isExpanded = ((ofTree tree).hasChildren row.path && e.contains row.path) := by
  constructor
  · rw [← map_path_rows]
    exact List.mem_map_of_mem hrow
  · rw [rows_eq_map] at hrow
    obtain ⟨x, hx, rfl⟩ := List.mem_map.1 hrow
    have hchildren := hasChildren_path (List.mem_filter.1 hx).1
    rw [Entry.row, hchildren]

/-- The first child is the first of what shows below an expanded row. -/
theorem below_expanded (hpath : path ∈ (ofTree tree).visiblePaths e)
    (hchildren : (ofTree tree).hasChildren path = true) (hexpanded : path ∈ e) :
    ∃ more, ((ofTree tree).visiblePaths e).filter (path.isAncestorOf ·) = path.child 0 :: more := by
  have hascending := (ascending_visiblePaths tree e).filter (path.isAncestorOf ·)
  have hbelow : path.isAncestorOf (path.child 0) = true := by
    simp [← NodePath.mem_ancestors_iff, NodePath.ancestors_child]
  have hmem : path.child 0 ∈ ((ofTree tree).visiblePaths e).filter (path.isAncestorOf ·) :=
    List.mem_filter.2 ⟨child_mem_visiblePaths hpath hchildren hexpanded, hbelow⟩
  obtain ⟨earlier, more, hsplit⟩ := List.append_of_mem hmem
  rw [hsplit]
  cases earlier with
  | nil => exact ⟨more, rfl⟩
  | cons first earlier =>
    have hfirst : first ∈ ((ofTree tree).visiblePaths e).filter (path.isAncestorOf ·) := by
      simp [hsplit]
    rw [hsplit] at hascending
    have hlt : first < path.child 0 := (List.pairwise_append.1 hascending).2.2 first
      List.mem_cons_self (path.child 0) List.mem_cons_self
    rcases NodePath.eq_or_child_zero_lt (List.mem_filter.1 hfirst).2 with rfl | hgt
    · exact absurd hlt (NodePath.lt_irrefl _)
    · exact absurd (NodePath.lt_trans hlt hgt) (NodePath.lt_irrefl _)

/-- Nothing shows below a node that is collapsed or has no children. -/
theorem below_unmarked (h : ((ofTree tree).hasChildren path && e.contains path) = false) :
    ((ofTree tree).visiblePaths e).filter (path.isAncestorOf ·) = [] := by
  by_cases hexpanded : path ∈ e
  · rw [Expansion.contains_iff.2 hexpanded, Bool.and_true] at h
    refine List.filter_eq_nil_iff.2 fun q hq hbelow => ?_
    have hlisted := (mem_visiblePaths_iff.1 hq).1
    rw [hasChildren_of_mem_ancestors hlisted (NodePath.mem_ancestors_iff.2 hbelow)] at h
    cases h
  · exact below_collapsed tree hexpanded

theorem nextPath?_expanded (hpath : path ∈ (ofTree tree).visiblePaths e)
    (hchildren : (ofTree tree).hasChildren path = true) (hexpanded : path ∈ e) :
    nextPath? path ((ofTree tree).visiblePaths e) = some (path.child 0) ∧
      previousPath? (path.child 0) ((ofTree tree).visiblePaths e) = some path := by
  have hnodup := nodup_visiblePaths tree e
  obtain ⟨above, rest, hsplit, _⟩ := visiblePaths_eq_append hpath
  obtain ⟨more, hbelow⟩ := below_expanded hpath hchildren hexpanded
  rw [hbelow, List.append_assoc, List.cons_append, List.cons_append] at hsplit
  rw [hsplit] at hnodup ⊢
  exact ⟨nextPath?_append hnodup, previousPath?_append hnodup⟩

theorem nextPath?_unmarked (hpath : path ∈ (ofTree tree).visiblePaths e)
    (h : ((ofTree tree).hasChildren path && e.contains path) = false)
    (hnext : nextPath? path ((ofTree tree).visiblePaths e) = some q) :
    path.isAncestorOf q = false := by
  have hnodup := nodup_visiblePaths tree e
  obtain ⟨above, rest, hsplit, houtside⟩ := visiblePaths_eq_append hpath
  rw [below_unmarked h, List.append_assoc, List.singleton_append] at hsplit
  rw [hsplit] at hnodup hnext
  rw [nextPath?_append hnodup] at hnext
  exact houtside q (List.mem_append_right above (List.mem_of_mem_head? hnext))

theorem parent_above (hpath : path ∈ (ofTree tree).visiblePaths e)
    (hparent : path.parent? = some parent) :
    ∃ above below, (ofTree tree).visiblePaths e = above ++ path :: below ∧ parent ∈ above := by
  obtain ⟨ordinal, rfl⟩ := NodePath.parent?_eq_some_iff.1 hparent
  have hshows : parent ∈ (ofTree tree).visiblePaths e :=
    mem_visiblePaths_of_mem_ancestors hpath (by simp [NodePath.ancestors_child])
  have hascending := ascending_visiblePaths tree e
  obtain ⟨above, below, hsplit⟩ := List.append_of_mem hpath
  rw [hsplit] at hshows hascending
  exact ⟨above, below, hsplit, NodePath.mem_left_of_lt hascending hshows (parent.lt_child ordinal)⟩

/-- Under the row of an expanded node stands the row of its first child, and the two are one step
apart in each way of going. Under any other row stands none that is below it, and there is no child
to go to. The row of the parent stands above. -/
theorem rows_follow_tree (tree : Option Node) (e : Expansion) :
    let l := ofTree tree
    let visible := l.visiblePaths e
    (l.rows e).map (·.path) = visible ∧
      (∀ row ∈ l.rows e,
        (row.isExpanded = true →
          firstChildPath? l e row.path = some (row.path.child 0) ∧
            nextPath? row.path visible = some (row.path.child 0) ∧
            previousPath? (row.path.child 0) visible = some row.path ∧
            (row.path.child 0).parent? = some row.path) ∧
        (row.isExpanded = false →
          firstChildPath? l e row.path = none ∧
            ∀ q, nextPath? row.path visible = some q → row.path.isAncestorOf q = false)) ∧
      ∀ path ∈ visible, path ≠ NodePath.root →
        ∃ parent above below, path.parent? = some parent ∧
          visible = above ++ path :: below ∧ parent ∈ above := by
  intro l visible
  refine ⟨map_path_rows l e, fun row hrow => ?_, fun path hpath hne => ?_⟩
  · obtain ⟨hpath, hmark⟩ := marked_of_mem_rows hrow
    rw [hmark, firstChildPath?_ofTree]
    constructor
    · intro hmarked
      obtain ⟨hchildren, hcontains⟩ := Bool.and_eq_true_iff.1 hmarked
      obtain ⟨hnext, hprevious⟩ :=
        nextPath?_expanded hpath hchildren (Expansion.contains_iff.1 hcontains)
      exact ⟨if_pos hmarked, hnext, hprevious, row.path.parent?_child 0⟩
    · intro hunmarked
      refine ⟨if_neg (by simp [hunmarked]), fun q hnext => nextPath?_unmarked hpath hunmarked hnext⟩
  · cases hparent : path.parent? with
    | none => exact absurd (NodePath.parent?_eq_none_iff.1 hparent) hne
    | some parent =>
      obtain ⟨above, below, hsplit, hmem⟩ := parent_above hpath hparent
      exact ⟨parent, above, below, rfl, hsplit, hmem⟩

/-- A node with its child, and before them a leaf with no more than a sibling under it. -/
theorem rows_follow_tree_sample :
    let l := ofTree (some Node.sample)
    let e : Expansion := .ofList [⟨[]⟩, ⟨[1]⟩]
    let visible := l.visiblePaths e
    let opened : Row := ⟨⟨[1]⟩, 1, true, true⟩
    let leaf : Row := ⟨⟨[0]⟩, 1, false, false⟩
    (opened ∈ l.rows e ∧ nextPath? ⟨[1]⟩ visible = some ⟨[1, 0]⟩ ∧
        previousPath? ⟨[1, 0]⟩ visible = some ⟨[1]⟩) ∧
      (leaf ∈ l.rows e ∧ firstChildPath? l e ⟨[0]⟩ = none ∧
        nextPath? ⟨[0]⟩ visible = some ⟨[1]⟩ ∧ (⟨[0]⟩ : NodePath).isAncestorOf ⟨[1]⟩ = false) ∧
      ⟨[1, 0]⟩ ∈ visible ∧ ⟨[1, 0]⟩ ≠ NodePath.root ∧
      ∃ parent above below, (⟨[1, 0]⟩ : NodePath).parent? = some parent ∧
        visible = above ++ ⟨[1, 0]⟩ :: below ∧ parent ∈ above := by
  intro l e visible opened leaf
  obtain ⟨_, hrows, hparents⟩ := rows_follow_tree (some Node.sample) e
  have hopened : opened ∈ l.rows e := by decide +kernel
  have hleaf : leaf ∈ l.rows e := by decide +kernel
  have hshows : ⟨[1, 0]⟩ ∈ visible := by decide +kernel
  have hsibling : nextPath? ⟨[0]⟩ visible = some ⟨[1]⟩ := by decide +kernel
  obtain ⟨_, hnext, hprevious, _⟩ := (hrows opened hopened).1 rfl
  obtain ⟨hnone, hunder⟩ := (hrows leaf hleaf).2 rfl
  exact ⟨⟨hopened, hnext, hprevious⟩, ⟨hleaf, hnone, hsibling, hunder ⟨[1]⟩ hsibling⟩, hshows,
    by decide, hparents ⟨[1, 0]⟩ hshows (by decide)⟩

end SyntaxOutline.Listing
