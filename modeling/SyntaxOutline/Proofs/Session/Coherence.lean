import SyntaxOutline.Proofs.Listing.Lookup
import SyntaxOutline.Proofs.Session.Moves

/-! # Coherence of sessions

The parts of a session that are kept rather than worked out anew agree with what they are made from.
Unless they are stale, the visible paths are those of the tree and the expanded nodes. The table of
lines is that of the source, a selection names a node of the tree, and the highlight is the span of
that node. Each move keeps all this, and so it holds after every run. -/
namespace SyntaxOutline

namespace Listing

theorem get?_of_contains {n : Node} (hfits : n.Fits) {path : NodePath}
    (h : (ofTree (some n)).contains path = true) :
    ∃ m, n.at? path = some m ∧ (ofTree (some n)).get? path = some (Entry.ofNode m path) := by
  obtain ⟨m, hm⟩ := mem_paths_ofTree_iff.1 (contains_iff.1 h)
  have hget := get?_ofTree_eq_some_iff.2 ⟨m, hm, rfl⟩
  exact ⟨m, hfits.at?_of_follow? hm, hget⟩

end Listing

namespace Session

variable {P : Node → Prop} {s s' : Session}

theorem select_of_node? {path : NodePath} {node : Node} (h : s.node? path = some node) :
    s.select path =
      ({ s with
          selected := some path
          highlight := some node.span
          stale := s.stale || !decide (path ∈ s.visible) }, true) := by
  rw [select, h]

theorem select_of_no_node {path : NodePath} (h : s.node? path = none) :
    s.select path = (s, false) := by
  rw [select, h]

theorem node?_of_ancestor {path ancestor : NodePath} {node : Node} (h : s.node? path = some node)
    (hancestor : ancestor ∈ path.ancestors) : ∃ above, s.node? ancestor = some above := by
  rw [node?] at h
  obtain ⟨tree, htree, hnode⟩ := Option.bind_eq_some_iff.1 h
  have hpre := NodePath.prefix_of_mem_ancestors hancestor
  obtain ⟨above, habove⟩ := Node.exists_at?_of_prefix_steps hpre hnode
  exact ⟨above, by rw [node?, htree]; exact habove⟩

/-- What clamping does to a selection that names a node. -/
theorem clampSelection_cases
    (hnode : ∀ path, s.selected = some path → ∃ node, s.node? path = some node) :
    (s.clampSelection = s ∧ ∀ path, s.selected = some path → path ∈ s.visible) ∨
    (∃ path ancestor above, s.selected = some path ∧ path ∉ s.visible ∧
      path.ancestors.reverse.find? (· ∈ s.visible) = some ancestor ∧ ancestor ∈ s.visible ∧
      s.node? ancestor = some above ∧
      s.clampSelection = { s with selected := some ancestor, highlight := some above.span }) ∨
    (∃ path, s.selected = some path ∧ path ∉ s.visible ∧
      path.ancestors.reverse.find? (· ∈ s.visible) = none ∧
      s.clampSelection = s.clearSelection) := by
  cases hselected : s.selected with
  | none => exact .inl ⟨by rw [clampSelection, hselected], by simp⟩
  | some path =>
    by_cases hvisible : path ∈ s.visible
    · refine .inl ⟨by rw [clampSelection, hselected]; simp [hvisible], ?_⟩
      intro q hq
      obtain rfl : path = q := by simpa using hq
      exact hvisible
    · refine .inr ?_
      cases hfind : path.ancestors.reverse.find? (· ∈ s.visible) with
      | none =>
        refine .inr ⟨path, rfl, hvisible, hfind, ?_⟩
        rw [clampSelection, hselected]
        simp only [hvisible, if_false, hfind]
      | some ancestor =>
        obtain ⟨node, hpath⟩ := hnode path hselected
        have hmem := List.mem_reverse.1 (List.mem_of_find?_eq_some hfind)
        have hshows : ancestor ∈ s.visible := by simpa using List.find?_some hfind
        obtain ⟨above, habove⟩ := node?_of_ancestor hpath hmem
        refine .inl ⟨path, ancestor, above, rfl, hvisible, hfind, hshows, habove, ?_⟩
        rw [clampSelection, hselected]
        simp only [hvisible, if_false, hfind, select_of_node? habove]
        simp [hshows]

/-- The visible paths are up to date, or known to be stale. -/
def Listed (s : Session) : Prop :=
  s.stale = false → s.visible = s.listing.visiblePaths s.expanded

/-- The selection, the highlight and the rest agree with the tree and the source. -/
structure Sound (s : Session) : Prop where
  lines_eq : s.lines = LineTable.ofText s.source
  tree_or_problem : s.tree = none ∨ s.problem = none
  fits : ∀ tree, s.tree = some tree → tree.Fits
  named : ∀ path, s.selected = some path →
    ∃ node, s.node? path = some node ∧ s.highlight = some node.span
  unlit : s.selected = none → s.highlight = none
  shown : s.stale = false → ∀ path, s.selected = some path → path ∈ s.visible

theorem Sound.names (h : s.Sound) (path : NodePath) (hpath : s.selected = some path) :
    ∃ node, s.node? path = some node := by
  obtain ⟨node, hnode, _⟩ := h.named path hpath
  exact ⟨node, hnode⟩

/-- The steps of a path lead to the node that it names. -/
theorem Sound.node?_of_follow? (h : s.Sound) {n m : Node} {path : NodePath} (htree : s.tree = some n)
    (hm : n.follow? path.steps = some m) : s.node? path = some m := by
  rw [node?, htree]
  exact (h.fits n htree).at?_of_follow? hm

theorem sound_start (settings : Settings) : (start settings).Sound where
  lines_eq := rfl
  tree_or_problem := .inl rfl
  fits := by simp [start]
  named := by simp [start]
  unlit := by simp [start]
  shown := by simp [start]

theorem sound_applyTree (tree : Node) (hfits : tree.Fits) (h : s.Sound) :
    (s.applyTree tree).Sound where
  lines_eq := h.lines_eq
  tree_or_problem := .inr rfl
  fits := by
    intro t ht
    obtain rfl : tree = t := by simpa [applyTree] using ht
    exact hfits
  named := by
    intro path hpath
    simp only [applyTree] at hpath
    have hcontains := (Option.filter_eq_some_iff.1 hpath).2
    obtain ⟨m, hm, hget⟩ := Listing.get?_of_contains hfits hcontains
    refine ⟨m, hm, ?_⟩
    simp only [applyTree, hpath, Option.bind_some, hget, Option.map_some, Entry.ofNode]
  unlit := by
    intro hnone
    simp only [applyTree] at hnone ⊢
    rw [hnone]
    rfl
  shown := by simp [applyTree]

theorem sound_clearSelection (h : s.Sound) : s.clearSelection.Sound where
  lines_eq := h.lines_eq
  tree_or_problem := h.tree_or_problem
  fits := h.fits
  named := by simp [clearSelection]
  unlit := by simp [clearSelection]
  shown := by simp [clearSelection]

theorem sound_select (path : NodePath) (h : s.Sound) : (s.select path).1.Sound := by
  cases hnode : s.node? path with
  | none =>
    rw [select_of_no_node hnode]
    exact h
  | some node =>
    rw [select_of_node? hnode]
    refine ⟨h.lines_eq, h.tree_or_problem, h.fits, ?_, by simp, ?_⟩
    · intro q hq
      obtain rfl : path = q := by simpa using hq
      exact ⟨node, hnode, rfl⟩
    · intro hstale q hq
      obtain rfl : path = q := by simpa using hq
      simp only [Bool.or_eq_false_iff, Bool.not_eq_false', decide_eq_true_eq] at hstale
      exact hstale.2

theorem sound_refresh (h : s.Sound) : s.refresh.Sound := by
  rw [refresh]
  split
  next =>
    have hnode := h.names
    rcases clampSelection_cases (s := { s with visible := _, stale := false }) hnode with
      ⟨heq, hshown⟩ | ⟨path, ancestor, above, _, _, _, hshows, habove, heq⟩ | ⟨path, _, _, _, heq⟩
    · rw [heq]
      exact ⟨h.lines_eq, h.tree_or_problem, h.fits, h.named, h.unlit, fun _ => hshown⟩
    · rw [heq]
      refine ⟨h.lines_eq, h.tree_or_problem, h.fits, ?_, by simp, ?_⟩
      · intro q hq
        obtain rfl : ancestor = q := by simpa using hq
        exact ⟨above, habove, rfl⟩
      · intro _ q hq
        obtain rfl : ancestor = q := by simpa using hq
        exact hshows
    · rw [heq]
      exact ⟨h.lines_eq, h.tree_or_problem, h.fits, by simp [clearSelection],
        by simp [clearSelection], by simp [clearSelection]⟩
  next => exact h

theorem sound_move (hP : ∀ tree, P tree → tree.Fits) (hmove : Move P s s') (h : s.Sound) :
    s'.Sound := by
  cases hmove with
  | setSource text => exact { h with lines_eq := rfl }
  | applyTree tree htree => exact sound_applyTree tree (hP tree htree) h
  | applyFailure failure =>
    exact ⟨h.lines_eq, .inl rfl, by simp [applyFailure], by simp [applyFailure],
      by simp [applyFailure], by simp [applyFailure]⟩
  | clearSelection => exact sound_clearSelection h
  | select path => exact sound_select path h
  | setExpansion expanded => exact { h with shown := by simp [setExpansion] }
  | setProfile profile => exact { h with }
  | refresh => exact sound_refresh h

theorem Moves.sound (hmoves : Moves Node.Fits s s') (h : s.Sound) : s'.Sound :=
  hmoves.keep (fun _ _ => sound_move fun _ hfits => hfits) h

theorem sound_run {κ : Type} (settings : Settings) {commands : List (Command κ)}
    (h : ∀ command ∈ commands, command.Brings Node.Fits) :
    ((start settings).run commands).Sound :=
  (moves_run _ h).sound (sound_start settings)

/-! Selecting, clamping and refreshing leave the tree, the problem and the expanded nodes alone. -/

theorem select_frame (s : Session) (path : NodePath) :
    ∃ selected highlight stale, (s.select path).1 = { s with selected, highlight, stale } := by
  cases h : s.node? path with
  | none => exact ⟨_, _, _, by rw [select_of_no_node h]⟩
  | some node => exact ⟨_, _, _, by rw [select_of_node? h]⟩

theorem clampSelection_frame (s : Session) :
    ∃ selected highlight stale, s.clampSelection = { s with selected, highlight, stale } := by
  unfold clampSelection
  split
  next => exact ⟨_, _, _, rfl⟩
  next =>
    split
    next => exact ⟨_, _, _, rfl⟩
    next =>
      split
      next ancestor _ => exact select_frame s ancestor
      next => exact ⟨_, _, _, rfl⟩

theorem refresh_frame (s : Session) :
    ∃ selected highlight stale visible,
      s.refresh = { s with selected, highlight, stale, visible } := by
  unfold refresh
  split
  next =>
    obtain ⟨selected, highlight, stale, heq⟩ := clampSelection_frame
      { s with visible := s.listing.visiblePaths s.expanded, stale := false }
    exact ⟨selected, highlight, stale, _, heq⟩
  next => exact ⟨_, _, _, _, rfl⟩

@[simp] theorem refresh_tree (s : Session) : s.refresh.tree = s.tree := by
  obtain ⟨_, _, _, _, heq⟩ := s.refresh_frame
  rw [heq]

@[simp] theorem refresh_listing (s : Session) : s.refresh.listing = s.listing := by
  rw [listing, listing, refresh_tree]

@[simp] theorem refresh_node? (s : Session) (path : NodePath) :
    s.refresh.node? path = s.node? path := by
  rw [node?, node?, refresh_tree]

@[simp] theorem refresh_problem (s : Session) : s.refresh.problem = s.problem := by
  obtain ⟨_, _, _, _, heq⟩ := s.refresh_frame
  rw [heq]

@[simp] theorem refresh_expanded (s : Session) : s.refresh.expanded = s.expanded := by
  obtain ⟨_, _, _, _, heq⟩ := s.refresh_frame
  rw [heq]

@[simp] theorem refresh_rows (s : Session) : s.refresh.rows = s.rows := by
  rw [rows, rows, refresh_listing, refresh_expanded]

@[simp] theorem setExpansion_listing (s : Session) (expanded : Expansion) :
    (s.setExpansion expanded).listing = s.listing := rfl

@[simp] theorem setExpansion_expanded (s : Session) (expanded : Expansion) :
    (s.setExpansion expanded).expanded = expanded := rfl

theorem refresh_visible (h : s.Listed) :
    s.refresh.visible = s.listing.visiblePaths s.expanded := by
  unfold refresh
  split
  next =>
    obtain ⟨_, _, _, heq⟩ := clampSelection_frame
      { s with visible := s.listing.visiblePaths s.expanded, stale := false }
    rw [heq]
  next hstale => exact h (by simpa using hstale)

theorem listed_move (hmove : Move P s s') (h : s.Listed) : s'.Listed := by
  cases hmove with
  | setSource text => exact h
  | applyTree tree htree => simp [Listed, applyTree]
  | applyFailure failure => simp [Listed, applyFailure]
  | clearSelection => exact h
  | select path =>
    cases hnode : s.node? path with
    | none =>
      rw [select_of_no_node hnode]
      exact h
    | some node =>
      rw [select_of_node? hnode]
      intro hstale
      simp only [Bool.or_eq_false_iff] at hstale
      exact h hstale.1
  | setExpansion expanded => simp [Listed, setExpansion]
  | setProfile profile => exact h
  | refresh =>
    intro _
    rw [refresh_visible h, refresh_listing, refresh_expanded]

theorem Moves.listed (hmoves : Moves P s s') (h : s.Listed) : s'.Listed :=
  hmoves.keep (fun _ _ => listed_move) h

theorem listed_run {κ : Type} (settings : Settings) (commands : List (Command κ)) :
    ((start settings).run commands).Listed := by
  have hmoves := moves_run (start settings) fun command (_ : command ∈ commands) =>
    command.brings_some
  exact hmoves.listed (by simp [Listed, start])

end Session

end SyntaxOutline
