import SyntaxOutline.Proofs.Rows.Bulk
import SyntaxOutline.Proofs.Session.Clamping

/-! # Following the cursor

A session that follows the cursor opens the nodes above the one that the cursor finds. So that node
shows, and the next refresh has no reason to move the selection away from it. Nothing is closed for
it, and what showed before still shows. -/
namespace SyntaxOutline.Session

variable {κ : Type} {s : Session} {path : NodePath} {node : Node} {offset : Nat}

theorem moveCursor_of_no_node (h : s.locate? offset = none) :
    (s.moveCursor offset).1 = s.clearSelection := by
  rw [moveCursor, h]

/-- The nodes above the located one are opened, and it is selected. -/
theorem moveCursor_of_follow (hfollow : s.settings.followCursor = true)
    (hlocate : s.locate? offset = some path) (hnode : s.node? path = some node) :
    (s.moveCursor offset).1 =
      (s.setExpansion (s.expanded.expandTo path)).showing path node := by
  have hopened : (s.setExpansion (s.expanded.expandTo path)).node? path = some node := hnode
  rw [moveCursor, hlocate]
  simp only [hfollow, if_true, select_of_node? hopened]
  simp [setExpansion, showing]

/-- The cursor finds a listed node. -/
theorem exists_node_of_locate? (h : s.Sound) (hlocate : s.locate? offset = some path) :
    path ∈ s.listing.paths ∧ ∃ node, s.node? path = some node := by
  obtain ⟨n, m, htree, hm, _⟩ := locate?_eq_some hlocate
  refine ⟨?_, m, h.node?_of_follow? htree hm⟩
  rw [listing, htree]
  exact Listing.mem_paths_ofTree_iff.2 ⟨m, hm⟩

/-- The located node shows after a refresh, so the selection stays on it. -/
theorem refresh_moveCursor (hsound : s.Sound) (hlisted : s.Listed)
    (hfollow : s.settings.followCursor = true) (hlocate : s.locate? offset = some path)
    (hnode : s.node? path = some node) :
    (s.moveCursor offset).1.refresh =
      (s.setExpansion (s.expanded.expandTo path)).rebuilt.showing path node := by
  have hsound' := (moves_moveCursor s offset).sound hsound
  have hlisted' := (moves_moveCursor (P := Node.Fits) s offset).listed hlisted
  have hpath := (exists_node_of_locate? hsound hlocate).1
  rw [moveCursor_of_follow hfollow hlocate hnode] at hsound' hlisted' ⊢
  exact refresh_of_shown hsound' hlisted' rfl (Listing.mem_visiblePaths_expandTo s.expanded hpath)

/-- After any run, a session that follows the cursor opens what is above the located node and
nothing else. All rows stay, and the node is and stays selected among them. A cursor outside of all
nodes clears the selection, and leaves the tree and the expanded nodes alone. -/
theorem following_of_run (settings : Settings) (commands : List (Command κ))
    (hfits : ∀ command ∈ commands, command.Fits) (offset : Nat) :
    let s := (start settings).run commands
    let moved := s.moveCursor offset
    (s.settings.followCursor = true → ∀ path, moved.2 = some path →
        (∀ q, q ∈ moved.1.expanded ↔ q ∈ s.expanded ∨ q ∈ path.ancestors) ∧
          s.refresh.visible.Sublist moved.1.refresh.visible ∧
          path ∈ moved.1.refresh.visible ∧ moved.1.refresh.selected = some path ∧
          ∃ node, moved.1.refresh.node? path = some node ∧
            moved.1.refresh.highlight = some node.span) ∧
      (moved.2 = none →
        moved.1.selected = none ∧ moved.1.highlight = none ∧
          moved.1.tree = s.tree ∧ moved.1.expanded = s.expanded) := by
  intro s moved
  have hsound : s.Sound := sound_run settings fun command hmem => (hfits command hmem).brings
  have hlisted : s.Listed := listed_run settings commands
  refine ⟨fun hfollow path hfound => ?_, fun hmissed => ?_⟩
  · have hlocate : s.locate? offset = some path := by rwa [moveCursor_snd] at hfound
    obtain ⟨hpath, node, hnode⟩ := exists_node_of_locate? hsound hlocate
    rw [refresh_moveCursor hsound hlisted hfollow hlocate hnode, refresh_visible hlisted,
      moveCursor_of_follow hfollow hlocate hnode]
    refine ⟨fun q => ?_, ?_, ?_, rfl, node, hnode, rfl⟩
    · exact Expansion.mem_expandTo.trans or_comm
    · exact Listing.visiblePaths_sublist s.tree (s.expanded.subset_expandTo path)
    · exact Listing.mem_visiblePaths_expandTo s.expanded hpath
  · have hlocate : s.locate? offset = none := by rwa [moveCursor_snd] at hmissed
    rw [moveCursor_of_no_node hlocate]
    exact ⟨rfl, rfl, rfl, rfl⟩

/-- The located node is two levels below the only row; another cursor is beyond the tree. -/
theorem following_of_run_collapsed :
    let commands : List (Command Unit) := [.applyParse (.ok Node.sample), .collapseAll]
    let s := (start {}).run commands
    (∀ command ∈ commands, command.Fits) ∧ s.settings.followCursor = true ∧
      s.refresh.visible = [NodePath.root] ∧ (s.moveCursor 20).2 = some ⟨[1, 0]⟩ ∧
      ⟨[1, 0]⟩ ∈ (s.moveCursor 20).1.refresh.visible ∧
      (s.moveCursor 20).1.refresh.selected = some ⟨[1, 0]⟩ ∧
      (s.moveCursor 50).2 = none ∧ (s.moveCursor 50).1.expanded = s.expanded := by
  intro commands s
  have hfits : ∀ command ∈ commands, command.Fits := by
    simp [commands, Command.Fits, Node.fits_sample]
  have hvisible : s.refresh.visible = [NodePath.root] := by decide +kernel
  have hfound : (s.moveCursor 20).2 = some ⟨[1, 0]⟩ := by decide +kernel
  have hmissed : (s.moveCursor 50).2 = none := by decide +kernel
  obtain ⟨hfollowed, _⟩ := following_of_run {} commands hfits 20
  obtain ⟨_, hcleared⟩ := following_of_run {} commands hfits 50
  obtain ⟨_, _, hshows, hselected, _⟩ := hfollowed rfl ⟨[1, 0]⟩ hfound
  obtain ⟨_, _, _, hexpanded⟩ := hcleared hmissed
  exact ⟨hfits, rfl, hvisible, hfound, hshows, hselected, hmissed, hexpanded⟩

end SyntaxOutline.Session
