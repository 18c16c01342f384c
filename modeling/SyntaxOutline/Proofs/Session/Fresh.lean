import SyntaxOutline.Proofs.Rows.Visible
import SyntaxOutline.Proofs.Session.Runs

/-! # Sessions after a refresh

A refresh leaves nothing stale, and a second one has nothing to do. The rows of a session that is up
to date are listed nodes of its tree, each once, and the selected node is among them. Selecting
another of them keeps all else as it is. -/
namespace SyntaxOutline.Session

variable {s : Session} {path : NodePath} {node : Node}

/-- The session is sound, and its visible paths are up to date. -/
structure Fresh (s : Session) : Prop where
  sound : s.Sound
  not_stale : s.stale = false
  visible_eq : s.visible = s.listing.visiblePaths s.expanded

theorem stale_refresh (h : s.Sound) : s.refresh.stale = false := by
  rw [refresh]
  split
  next =>
    rcases clampSelection_cases (s := { s with visible := _, stale := false }) h.names with
      ⟨heq, _⟩ | ⟨_, _, _, _, _, _, _, _, heq⟩ | ⟨_, _, _, _, heq⟩
    · rw [heq]
    · rw [heq]
    · rw [heq, clearSelection]
  next hstale => simpa using hstale

theorem fresh_refresh (hsound : s.Sound) (hlisted : s.Listed) : s.refresh.Fresh where
  sound := sound_refresh hsound
  not_stale := stale_refresh hsound
  visible_eq := by rw [refresh_visible hlisted, refresh_listing, refresh_expanded]

theorem Fresh.listed (h : s.Fresh) : s.Listed := fun _ => h.visible_eq

theorem fresh_run {κ : Type} (settings : Settings) {commands : List (Command κ)}
    (hfits : ∀ command ∈ commands, command.Fits) :
    ((start settings).run commands).refresh.Fresh :=
  fresh_refresh (sound_run settings fun command hmem => (hfits command hmem).brings)
    (listed_run settings commands)

theorem Fresh.refresh_eq (h : s.Fresh) : s.refresh = s := by
  rw [refresh, h.not_stale]
  rfl

theorem Fresh.nodup_visible (h : s.Fresh) : s.visible.Nodup := by
  rw [h.visible_eq]
  exact Listing.nodup_visiblePaths s.tree s.expanded

/-- A row is the row of a node, which its path leads to and under which it is listed. -/
theorem Fresh.node_of_visible (h : s.Fresh) (hmem : path ∈ s.visible) :
    ∃ node, s.node? path = some node ∧ s.listing.get? path = some (Entry.ofNode node path) := by
  rw [h.visible_eq] at hmem
  have hlisted := (Listing.mem_visiblePaths_iff.1 hmem).1
  cases htree : s.tree with
  | none =>
    rw [htree] at hlisted
    cases hlisted
  | some n =>
    rw [htree] at hlisted
    obtain ⟨node, hnode, hget⟩ :=
      Listing.get?_of_contains (h.sound.fits n htree) (Listing.contains_iff.2 hlisted)
    exact ⟨node, by rw [node?, htree]; exact hnode, by rw [listing, htree]; exact hget⟩

/-- A row is the row of a node that the steps of its path lead to. -/
theorem Fresh.follow?_of_visible (h : s.Fresh) (hmem : path ∈ s.visible)
    (hnode : s.node? path = some node) :
    ∃ n, s.tree = some n ∧ n.follow? path.steps = some node := by
  obtain ⟨n, htree, _⟩ := Option.bind_eq_some_iff.1 hnode
  rw [h.visible_eq, listing, htree] at hmem
  obtain ⟨m, hm⟩ := Listing.mem_paths_ofTree_iff.1 (Listing.mem_visiblePaths_iff.1 hmem).1
  have hsame := h.sound.node?_of_follow? htree hm
  exact ⟨n, htree, hm.trans (hsame.symm.trans hnode)⟩

theorem Fresh.named_of_visible (h : s.Fresh) (hmem : path ∈ s.visible) :
    ∃ node, s.node? path = some node := by
  obtain ⟨node, hnode, _⟩ := h.node_of_visible hmem
  exact ⟨node, hnode⟩

/-- The root shows, so an outline with a tree has rows. -/
theorem Fresh.root_mem_visible (h : s.Fresh) (htree : s.tree.isSome) :
    NodePath.root ∈ s.visible := by
  obtain ⟨n, hn⟩ := Option.isSome_iff_exists.1 htree
  rw [h.visible_eq, listing, hn]
  exact Listing.root_mem_visiblePaths n s.expanded

/-- The session with another node selected and highlighted. -/
def showing (s : Session) (path : NodePath) (node : Node) : Session :=
  { s with selected := some path, highlight := some node.span }

theorem select_of_visible (hmem : path ∈ s.visible) (hnode : s.node? path = some node) :
    s.select path = (s.showing path node, true) := by
  rw [select_of_node? hnode]
  simp [hmem, showing]

theorem Fresh.showing (h : s.Fresh) (hmem : path ∈ s.visible) (hnode : s.node? path = some node) :
    (s.showing path node).Fresh where
  sound := by
    have hsound := sound_select path h.sound
    rw [select_of_visible hmem hnode] at hsound
    exact hsound
  not_stale := h.not_stale
  visible_eq := h.visible_eq

/-- Selecting what is selected changes nothing. -/
theorem Sound.showing_selected (h : s.Sound) (hselected : s.selected = some path)
    (hnode : s.node? path = some node) : s.showing path node = s := by
  obtain ⟨named, hnamed, hlit⟩ := h.named path hselected
  obtain rfl : node = named := Option.some.inj (hnode.symm.trans hnamed)
  rw [Session.showing, ← hselected, ← hlit]

theorem Fresh.selected_visible (h : s.Fresh) (hselected : s.selected = some path) :
    path ∈ s.visible := h.sound.shown h.not_stale path hselected

end SyntaxOutline.Session
