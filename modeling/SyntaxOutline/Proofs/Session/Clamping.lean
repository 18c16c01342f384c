import SyntaxOutline.Proofs.Session.Cursor

/-! # Hidden selections

A path is hidden by the topmost of the collapsed nodes above it. That node shows, and nothing between
it and the path does. So when a refresh looks for the nearest row above a hidden selection, it finds
the node that hides it. -/
namespace SyntaxOutline

namespace Expansion

variable {expanded : Expansion} {path cover : NodePath}

/-- The topmost collapsed node above a path. -/
def cover? (expanded : Expansion) (path : NodePath) : Option NodePath :=
  path.ancestors.find? fun ancestor => !expanded.contains ancestor

theorem cover?_eq_none_iff :
    expanded.cover? path = none ↔ ∀ ancestor ∈ path.ancestors, ancestor ∈ expanded := by
  simp [cover?, contains_iff]

theorem exists_split_of_cover? (h : expanded.cover? path = some cover) :
    ∃ above below, path.ancestors = above ++ cover :: below ∧ cover ∉ expanded ∧
      ∀ ancestor ∈ above, ancestor ∈ expanded := by
  obtain ⟨hcollapsed, above, below, hsplit, habove⟩ := List.find?_eq_some_iff_append.1 h
  refine ⟨above, below, hsplit, ?_, ?_⟩
  · simpa [← contains_iff] using hcollapsed
  · simpa [contains_iff] using habove

/-- What covers a path is a collapsed node above it, with expanded nodes only above itself. -/
theorem cover?_eq_some (h : expanded.cover? path = some cover) :
    cover ∈ path.ancestors ∧ cover ∉ expanded ∧
      ∀ ancestor ∈ cover.ancestors, ancestor ∈ expanded := by
  obtain ⟨above, below, hsplit, hcollapsed, habove⟩ := exists_split_of_cover? h
  obtain ⟨hancestors, _⟩ := NodePath.ancestors_split hsplit
  refine ⟨by simp [hsplit], hcollapsed, ?_⟩
  rw [hancestors]
  exact habove

/-- No collapsed node above the path is nearer to the root. -/
theorem depth_cover?_le (h : expanded.cover? path = some cover) {ancestor : NodePath}
    (habove : ancestor ∈ path.ancestors) (hcollapsed : ancestor ∉ expanded) :
    cover.depth ≤ ancestor.depth := by
  obtain ⟨hcover, _, hopen⟩ := cover?_eq_some h
  rcases NodePath.ancestors_total hcover habove with hlt | rfl | hgt
  · exact Nat.le_of_lt (NodePath.depth_lt_of_mem_ancestors hlt)
  · exact Nat.le_refl _
  · exact absurd (hopen ancestor hgt) hcollapsed

end Expansion

namespace Listing

variable {tree : Option Node} {expanded : Expansion} {path cover : NodePath}

theorem cover_mem_visiblePaths (hpath : path ∈ (ofTree tree).paths)
    (h : expanded.cover? path = some cover) : cover ∈ (ofTree tree).visiblePaths expanded := by
  obtain ⟨hcover, _, hopen⟩ := Expansion.cover?_eq_some h
  exact mem_visiblePaths_iff.2 ⟨mem_paths_of_mem_ancestors hpath hcover, hopen⟩

/-- No row above the path is farther from the root. -/
theorem depth_le_cover (h : expanded.cover? path = some cover) {ancestor : NodePath}
    (habove : ancestor ∈ path.ancestors) (hshows : ancestor ∈ (ofTree tree).visiblePaths expanded) :
    ancestor.depth ≤ cover.depth := by
  obtain ⟨hcover, hcollapsed, _⟩ := Expansion.cover?_eq_some h
  rcases NodePath.ancestors_total hcover habove with hlt | rfl | hgt
  · exact absurd hshows (not_mem_visiblePaths hlt hcollapsed)
  · exact Nat.le_refl _
  · exact Nat.le_of_lt (NodePath.depth_lt_of_mem_ancestors hgt)

/-- The nearest row above a path, searched for from the path upwards, is what covers it. -/
theorem find?_visible_of_cover? (hpath : path ∈ (ofTree tree).paths)
    (h : expanded.cover? path = some cover) :
    path.ancestors.reverse.find? (· ∈ (ofTree tree).visiblePaths expanded) = some cover := by
  obtain ⟨above, below, hsplit, hcollapsed, _⟩ := Expansion.exists_split_of_cover? h
  obtain ⟨_, hbelow⟩ := NodePath.ancestors_split hsplit
  have hhidden : ∀ q ∈ below, q ∉ (ofTree tree).visiblePaths expanded :=
    fun q hq => not_mem_visiblePaths (hbelow q hq) hcollapsed
  apply List.find?_eq_some_iff_append.2
  refine ⟨decide_eq_true (cover_mem_visiblePaths hpath h), below.reverse, above.reverse, ?_, ?_⟩
  · simp [hsplit]
  · simpa using hhidden

end Listing

namespace Session

variable {κ : Type} {s : Session} {path cover : NodePath} {node : Node}

/-- The session with its visible paths worked out anew, and the selection as it was. -/
def rebuilt (s : Session) : Session :=
  { s with visible := s.listing.visiblePaths s.expanded, stale := false }

theorem Sound.clampSelection_eq (h : s.Sound) (hstale : s.stale = false) : s.clampSelection = s := by
  unfold clampSelection
  split
  next => rfl
  next path hselected => rw [if_pos (h.shown hstale path hselected)]

/-- A refresh rebuilds and clamps. If nothing is stale, neither makes a difference. -/
theorem refresh_eq_clampSelection (hsound : s.Sound) (hlisted : s.Listed) :
    s.refresh = s.rebuilt.clampSelection := by
  rw [refresh]
  split
  next => rfl
  next hstale =>
    have hfresh : s.stale = false := by simpa using hstale
    have hrebuilt : s.rebuilt = s := by rw [rebuilt, ← hlisted hfresh, ← hfresh]
    rw [hrebuilt, hsound.clampSelection_eq hfresh]

theorem refresh_of_shown (hsound : s.Sound) (hlisted : s.Listed)
    (hselected : s.selected = some path)
    (hshows : path ∈ s.listing.visiblePaths s.expanded) : s.refresh = s.rebuilt := by
  rw [refresh_eq_clampSelection hsound hlisted]
  simp [clampSelection, rebuilt, hselected, hshows]

theorem refresh_of_covered (hsound : s.Sound) (hlisted : s.Listed)
    (hselected : s.selected = some path) (hpath : path ∈ s.listing.paths)
    (hcover : s.expanded.cover? path = some cover) (hnode : s.node? cover = some node) :
    s.refresh = s.rebuilt.showing cover node := by
  obtain ⟨habove, hcollapsed, _⟩ := Expansion.cover?_eq_some hcover
  have hhidden : path ∉ s.rebuilt.visible := Listing.not_mem_visiblePaths habove hcollapsed
  have hfind : path.ancestors.reverse.find? (· ∈ s.rebuilt.visible) = some cover :=
    Listing.find?_visible_of_cover? hpath hcover
  have hshows : cover ∈ s.rebuilt.visible := Listing.cover_mem_visiblePaths hpath hcover
  have hselect : s.rebuilt.select cover = (s.rebuilt.showing cover node, true) :=
    select_of_visible hshows hnode
  rw [refresh_eq_clampSelection hsound hlisted, clampSelection]
  have hsame : s.rebuilt.selected = some path := hselected
  simp only [hsame, hhidden, if_false, hfind, hselect]

/-- After any run, a refresh leaves a selection alone that shows. It moves one that does not to the
topmost collapsed node above, which is the nearest row, and no refresh drops a selection. -/
theorem clamped_of_run (settings : Settings) (commands : List (Command κ))
    (hfits : ∀ command ∈ commands, command.Fits) :
    let s := (start settings).run commands
    (∀ path ∈ s.listing.paths, s.selected = some path →
        ((∀ ancestor ∈ path.ancestors, ancestor ∈ s.expanded) →
          s.refresh.selected = some path ∧ s.refresh.highlight = s.highlight) ∧
        ((∃ ancestor ∈ path.ancestors, ancestor ∉ s.expanded) →
          ∃ cover node, s.refresh.selected = some cover ∧
            s.node? cover = some node ∧ s.refresh.highlight = some node.span ∧
            (cover ∈ path.ancestors ∧ cover ∉ s.expanded ∧
              ∀ ancestor ∈ path.ancestors, ancestor ∉ s.expanded →
                cover.depth ≤ ancestor.depth) ∧
            path ∉ s.refresh.visible ∧ cover ∈ s.refresh.visible ∧
              ∀ ancestor ∈ path.ancestors, ancestor ∈ s.refresh.visible →
                ancestor.depth ≤ cover.depth)) ∧
      (s.selected.isSome → s.refresh.selected.isSome) ∧
      s.refresh.refresh = s.refresh := by
  intro s
  have hsound : s.Sound := sound_run settings fun command hmem => (hfits command hmem).brings
  have hlisted : s.Listed := listed_run settings commands
  refine ⟨fun path hpath hselected => ⟨fun hopen => ?_, fun hcollapsed => ?_⟩, fun hsome => ?_, ?_⟩
  · have hshows := Listing.mem_visiblePaths_iff.2 ⟨hpath, hopen⟩
    rw [refresh_of_shown hsound hlisted hselected hshows]
    exact ⟨hselected, rfl⟩
  · cases hcover : s.expanded.cover? path with
    | none =>
      obtain ⟨ancestor, habove, hnot⟩ := hcollapsed
      exact absurd (Expansion.cover?_eq_none_iff.1 hcover ancestor habove) hnot
    | some cover =>
      obtain ⟨habove, hnot, _⟩ := Expansion.cover?_eq_some hcover
      obtain ⟨_, hnamed⟩ := hsound.names path hselected
      obtain ⟨node, hnode⟩ := node?_of_ancestor hnamed habove
      rw [refresh_of_covered hsound hlisted hselected hpath hcover hnode]
      refine ⟨cover, node, rfl, hnode, rfl, ⟨habove, hnot, ?_⟩, ?_, ?_, ?_⟩
      · exact fun _ => Expansion.depth_cover?_le hcover
      · exact Listing.not_mem_visiblePaths habove hnot
      · exact Listing.cover_mem_visiblePaths hpath hcover
      · exact fun _ => Listing.depth_le_cover hcover
  · obtain ⟨path, hselected⟩ := Option.isSome_iff_exists.1 hsome
    obtain ⟨q, hrefreshed, _⟩ := selected_refresh hsound hselected
    rw [hrefreshed]
    rfl
  · exact (fresh_refresh hsound hlisted).refresh_eq

/-- The node right above the selection and the root are both collapsed; the root hides both. -/
theorem clamped_of_run_collapsed :
    let commands : List (Command Unit) :=
      [.applyParse (.ok Node.sample), .expandAll, .select ⟨[1, 0]⟩, .refresh, .collapseAll]
    let s := (start {}).run commands
    (∀ command ∈ commands, command.Fits) ∧ ⟨[1, 0]⟩ ∈ s.listing.paths ∧
      s.selected = some ⟨[1, 0]⟩ ∧ (∃ ancestor ∈ (⟨[1, 0]⟩ : NodePath).ancestors,
        ancestor ∉ s.expanded) ∧
      ∃ cover, s.refresh.selected = some cover ∧ cover.depth ≤ NodePath.root.depth := by
  intro commands s
  have hfits : ∀ command ∈ commands, command.Fits := by
    simp [commands, Command.Fits, Node.fits_sample]
  have hpath : ⟨[1, 0]⟩ ∈ s.listing.paths := by decide +kernel
  have hselected : s.selected = some ⟨[1, 0]⟩ := by decide +kernel
  have hroot : NodePath.root ∈ (⟨[1, 0]⟩ : NodePath).ancestors := by decide
  have hcollapsed : NodePath.root ∉ s.expanded := Expansion.not_mem_collapseAll _ _
  obtain ⟨_, hcovered⟩ := (clamped_of_run {} commands hfits).1 ⟨[1, 0]⟩ hpath hselected
  obtain ⟨cover, _, hrefreshed, _, _, ⟨_, _, htopmost⟩, _⟩ :=
    hcovered ⟨NodePath.root, hroot, hcollapsed⟩
  exact ⟨hfits, hpath, hselected, ⟨NodePath.root, hroot, hcollapsed⟩, cover, hrefreshed,
    htopmost NodePath.root hroot hcollapsed⟩

end Session

end SyntaxOutline
