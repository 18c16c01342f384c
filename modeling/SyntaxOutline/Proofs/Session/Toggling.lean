import SyntaxOutline.Proofs.Rows.Folding
import SyntaxOutline.Proofs.Session.Clamping
import SyntaxOutline.Proofs.Session.Walk

/-! # Opening and closing the selected node

Opening and closing a row, alone or with its subtree, changes what is expanded in the subtree only.
So the row still shows, the selection stays on it, and the rows outside of the subtree stay as they
are. Below the row then stand all nodes below it, none of them, or its children. -/
namespace SyntaxOutline.Session

variable {κ ν : Type} {s : Session} {path : NodePath} {node : Node} {expanded : Expansion}

/-- The given rows stand right below a row, and are all of the rows below it. -/
def ShowsBelow (s : Session) (path : NodePath) (below : List NodePath) : Prop :=
  ∃ above rest, s.visible = above ++ path :: below ++ rest ∧
    ∀ q ∈ above ++ rest, path.isAncestorOf q = false

theorem Fresh.showsBelow (h : s.Fresh) (hmem : path ∈ s.visible) :
    s.ShowsBelow path (s.visible.filter (path.isAncestorOf ·)) := by
  rw [h.visible_eq] at hmem
  rw [ShowsBelow, h.visible_eq]
  exact Listing.visiblePaths_eq_append hmem

/-- A change below the selected row leaves the selection on it. -/
theorem Fresh.refresh_setExpansion (h : s.Fresh) (hselected : s.selected = some path)
    (hagree : s.expanded.AgreesOutside expanded path) :
    (s.setExpansion expanded).refresh = (s.setExpansion expanded).rebuilt := by
  have hmoves : Moves Node.Fits s (s.setExpansion expanded) := .single (.setExpansion s expanded)
  refine refresh_of_shown (hmoves.sound h.sound) (hmoves.listed h.listed) hselected ?_
  have hmem := h.selected_visible hselected
  rw [h.visible_eq] at hmem
  obtain ⟨hlisted, hopen⟩ := Listing.mem_visiblePaths_iff.1 hmem
  refine Listing.mem_visiblePaths_iff.2 ⟨hlisted, ?_⟩
  rw [← Expansion.opens_iff] at hopen ⊢
  exact (hagree.opens_eq path.isAncestorOf_self).symm.trans hopen

theorem Fresh.fresh_setExpansion (h : s.Fresh) (expanded : Expansion) :
    (s.setExpansion expanded).refresh.Fresh := by
  have hmoves : Moves Node.Fits s (s.setExpansion expanded) := .single (.setExpansion s expanded)
  exact fresh_refresh (hmoves.sound h.sound) (hmoves.listed h.listed)

/-- What is expanded once the node at a path is opened or closed, alone or with its subtree. -/
def toggled (s : Session) (subtree : Bool) (path : NodePath) : Expansion :=
  if !subtree then (s.expanded.toggle path).1
  else if s.expanded.contains path then s.expanded.collapseSubtree s.listing path
  else s.expanded.expandSubtree s.listing path

theorem agreesOutside_toggled (s : Session) (subtree : Bool) (hdepth : path.depth < levelLimit) :
    s.expanded.AgreesOutside (s.toggled subtree path) path := by
  rw [toggled]
  split
  next => exact s.expanded.agreesOutside_toggle path
  next =>
    split
    next => exact s.expanded.agreesOutside_collapseSubtree s.tree hdepth
    next => exact s.expanded.agreesOutside_expandSubtree s.tree hdepth

/-- The operation that opens and closes a node, alone or with its subtree. -/
def toggling (subtree : Bool) : Operation := if subtree then .toggleSubtree else .toggle

theorem Fresh.act_toggling (h : s.Fresh) (hselected : s.selected = some path)
    (hchildren : s.listing.hasChildren path = true) (subtree : Bool) :
    s.act (.operate (toggling subtree) : Action ν) =
      (s.setExpansion (s.toggled subtree path), .handled) := by
  have htoggle : s.toggleSelected subtree = (s.setExpansion (s.toggled subtree path), true) := by
    rw [toggleSelected, hselected]
    simp only [hchildren, if_true]
    rfl
  refine h.act_of_operate (h.selected_visible hselected) ?_
  cases subtree with
  | false => exact htoggle
  | true => exact htoggle

/-! What a session is like after the refresh that follows. -/

theorem Fresh.selected_setExpansion (h : s.Fresh) (hselected : s.selected = some path)
    (hagree : s.expanded.AgreesOutside expanded path) :
    (s.setExpansion expanded).refresh.selected = some path := by
  rw [h.refresh_setExpansion hselected hagree]
  exact hselected

theorem rows_setExpansion_outside (s : Session)
    (hagree : s.expanded.AgreesOutside expanded path) :
    (s.setExpansion expanded).rows.filter (·.isOutside path) = s.rows.filter (·.isOutside path) :=
  (Listing.rows_outside s.tree hagree).symm

theorem Fresh.showsBelow_setExpansion (h : s.Fresh) (hselected : s.selected = some path)
    (hagree : s.expanded.AgreesOutside expanded path) :
    (s.setExpansion expanded).refresh.ShowsBelow path
      ((s.listing.visiblePaths expanded).filter (path.isAncestorOf ·)) := by
  have hfresh := h.fresh_setExpansion expanded
  have hbelow := hfresh.showsBelow
    (hfresh.selected_visible (h.selected_setExpansion hselected hagree))
  rwa [hfresh.visible_eq, refresh_listing, refresh_expanded, setExpansion_listing,
    setExpansion_expanded] at hbelow

theorem toggled_of_collapsed (hcollapsed : path ∉ s.expanded) :
    s.toggled true path = s.expanded.expandSubtree s.listing path := by
  simp [toggled, Expansion.contains_iff, hcollapsed]

theorem toggled_of_expanded (hexpanded : path ∈ s.expanded) :
    s.toggled true path = s.expanded.collapseSubtree s.listing path := by
  simp [toggled, Expansion.contains_iff, hexpanded]

/-- Opening a closed node with its subtree shows all nodes below it. -/
theorem Fresh.showsBelow_open (h : s.Fresh) (hselected : s.selected = some path)
    (hdepth : path.depth < levelLimit) (hcollapsed : path ∉ s.expanded) :
    (s.setExpansion (s.toggled true path)).refresh.ShowsBelow path
      (s.listing.paths.filter (path.isAncestorOf ·)) := by
  have hbelow := h.showsBelow_setExpansion hselected (s.agreesOutside_toggled true hdepth)
  have hmem := h.selected_visible hselected
  rw [h.visible_eq] at hmem
  rw [toggled_of_collapsed hcollapsed] at hbelow ⊢
  rwa [listing, Listing.below_expandSubtree hmem hdepth] at hbelow

/-- Closing an open node with its subtree shows none of them. -/
theorem Fresh.showsBelow_close (h : s.Fresh) (hselected : s.selected = some path)
    (hdepth : path.depth < levelLimit) (hexpanded : path ∈ s.expanded) :
    (s.setExpansion (s.toggled true path)).refresh.ShowsBelow path [] := by
  have hbelow := h.showsBelow_setExpansion hselected (s.agreesOutside_toggled true hdepth)
  have hmem := h.selected_visible hselected
  rw [h.visible_eq] at hmem
  have hclosed : path ∉ s.expanded.collapseSubtree s.listing path :=
    Expansion.not_mem_collapseSubtree hdepth (Listing.mem_visiblePaths_iff.1 hmem).1
      List.prefix_rfl
  have hnone := Listing.below_collapsed s.tree hclosed
  rw [toggled_of_expanded hexpanded] at hbelow ⊢
  exact hnone ▸ hbelow

/-- A node that was closed with its subtree and is opened again shows its children. -/
theorem Fresh.showsBelow_reopen (h : s.Fresh) (hselected : s.selected = some path)
    (hdepth : path.depth < levelLimit) (hexpanded : path ∈ s.expanded)
    (hnode : s.node? path = some node) :
    let closed := (s.setExpansion (s.toggled true path)).refresh
    (closed.setExpansion (closed.toggled false path)).refresh.ShowsBelow path
      ((List.range node.children.length).map path.child) := by
  intro closed
  have hclosed : closed.Fresh := h.fresh_setExpansion _
  have hstays := h.selected_setExpansion hselected (s.agreesOutside_toggled true hdepth)
  have hbelow := hclosed.showsBelow_setExpansion hstays (closed.agreesOutside_toggled false hdepth)
  have hmem := h.selected_visible hselected
  obtain ⟨n, htree, hm⟩ := h.follow?_of_visible hmem hnode
  have hlisting : s.listing = Listing.ofTree (some n) := by rw [listing, htree]
  rw [h.visible_eq, hlisting] at hmem
  have hreopened : closed.toggled false path =
      ((s.expanded.collapseSubtree (.ofTree (some n)) path).toggle path).1 := by
    rw [toggled, refresh_expanded, setExpansion_expanded, toggled_of_expanded hexpanded, hlisting]
    rfl
  have hsame : closed.listing = Listing.ofTree (some n) := by
    rw [refresh_listing, setExpansion_listing, hlisting]
  have hchildren := Listing.below_toggle_collapseSubtree hm hmem hdepth
  rw [hreopened, hsame] at hbelow
  rw [hreopened]
  exact hchildren ▸ hbelow

/-- Opening or closing a node twice leaves what is expanded as it is. -/
theorem toggled_toggled (s : Session) (path : NodePath) :
    (s.setExpansion (s.toggled false path)).refresh.toggled false path = s.expanded := by
  rw [toggled, refresh_expanded]
  exact s.expanded.toggle_toggle path

theorem Fresh.restored (h : s.Fresh) (path : NodePath) :
    let between := (s.setExpansion (s.toggled false path)).refresh
    let restored := (between.setExpansion (between.toggled false path)).refresh
    restored.rows = s.rows ∧ restored.visible = s.visible := by
  intro between restored
  have hbetween : between.Fresh := h.fresh_setExpansion _
  have hrestored : restored.Fresh := hbetween.fresh_setExpansion _
  have hrows : restored.rows = s.rows := by
    rw [refresh_rows, toggled_toggled, rows, rows]
    simp [between]
  refine ⟨hrows, ?_⟩
  rw [hrestored.visible_eq, h.visible_eq, ← map_path_rows, ← map_path_rows]
  exact congrArg (·.map (·.path)) hrows

section Actions

variable (h : s.refresh.Fresh) (hselected : s.refresh.selected = some path)
  (hchildren : s.listing.hasChildren path = true)

include h hselected hchildren

theorem act_toggling (subtree : Bool) :
    s.act (.operate (toggling subtree) : Action ν) =
      (s.refresh.setExpansion (s.refresh.toggled subtree path), .handled) := by
  rw [← act_refresh h]
  exact h.act_toggling hselected (by rwa [refresh_listing]) subtree

theorem kept_of_toggling (hdepth : path.depth < levelLimit) (subtree : Bool) :
    let after : Session × Response ν := s.act (.operate (toggling subtree))
    after.2 = .handled ∧ after.1.refresh.selected = some path ∧
      after.1.refresh.rows.filter (·.isOutside path) =
        s.refresh.rows.filter (·.isOutside path) := by
  have hagree := s.refresh.agreesOutside_toggled subtree hdepth
  have hrows := rows_setExpansion_outside s.refresh hagree
  rw [act_toggling h hselected hchildren]
  refine ⟨rfl, h.selected_setExpansion hselected hagree, ?_⟩
  rwa [← refresh_rows] at hrows

/-- A second action finds the same node selected in the same tree. -/
theorem act_act_toggling (hdepth : path.depth < levelLimit) (subtree again : Bool) :
    let after : Session × Response ν := s.act (.operate (toggling subtree))
    let between := (s.refresh.setExpansion (s.refresh.toggled subtree path)).refresh
    after.1.act (.operate (toggling again) : Action ν) =
        (between.setExpansion (between.toggled again path), .handled) ∧
      after.1.refresh.act (.operate (toggling again) : Action ν) =
        after.1.act (.operate (toggling again)) := by
  intro after between
  have hafter : after = (s.refresh.setExpansion (s.refresh.toggled subtree path), .handled) :=
    act_toggling h hselected hchildren subtree
  have hbetween : between.Fresh := h.fresh_setExpansion _
  have hstays := h.selected_setExpansion hselected (s.refresh.agreesOutside_toggled subtree hdepth)
  have hlisted : between.listing.hasChildren path = true := by
    rwa [refresh_listing, setExpansion_listing, refresh_listing]
  have hsame := act_refresh (ν := ν) hbetween (toggling again)
  rw [hafter]
  exact ⟨hsame.symm.trans (hbetween.act_toggling hstays hlisted again), hsame⟩

end Actions

/-- After any run, opening or closing the selected node, alone or with its subtree, keeps it selected
and all rows outside of its subtree as they are. A closed node that is opened with its subtree shows
all nodes below it. An open one that is closed with its subtree shows none of them, and its children
once it is opened again. Opening or closing a node twice restores the rows. -/
theorem toggles_of_run (settings : Settings) (commands : List (Command κ))
    (hfits : ∀ command ∈ commands, command.Fits) :
    let s := (start settings).run commands
    ∀ path node, s.refresh.selected = some path → s.node? path = some node →
      node.children ≠ [] → path.depth < levelLimit →
      let once : Session × Response ν := s.act (.operate .toggle)
      let swept : Session × Response ν := s.act (.operate .toggleSubtree)
      (∀ after ∈ [once, swept], after.2 = .handled ∧ after.1.refresh.selected = some path ∧
          after.1.refresh.rows.filter (·.isOutside path) =
            s.refresh.rows.filter (·.isOutside path)) ∧
        (path ∉ s.expanded →
          swept.1.refresh.ShowsBelow path (s.listing.paths.filter (path.isAncestorOf ·))) ∧
        (path ∈ s.expanded →
          swept.1.refresh.ShowsBelow path [] ∧
            let reopened : Session × Response ν := swept.1.act (.operate .toggle)
            reopened.2 = .handled ∧ swept.1.refresh.act (.operate .toggle) = reopened ∧
              reopened.1.refresh.ShowsBelow path
                ((List.range node.children.length).map path.child)) ∧
        let twice : Session × Response ν := once.1.act (.operate .toggle)
        twice.2 = .handled ∧ once.1.refresh.act (.operate .toggle) = twice ∧
          twice.1.refresh.rows = s.refresh.rows ∧ twice.1.refresh.visible = s.refresh.visible := by
  intro s path node hselected hnode hsome hdepth once swept
  have hfresh : s.refresh.Fresh := fresh_run settings hfits
  have hnamed : s.refresh.node? path = some node := by rwa [refresh_node?]
  have hchildren : s.listing.hasChildren path = true := by
    rw [← refresh_listing]
    exact hfresh.hasChildren_of_selected hselected hnamed hsome
  have hswept : swept = (s.refresh.setExpansion (s.refresh.toggled true path), .handled) :=
    act_toggling hfresh hselected hchildren true
  have hagain := act_act_toggling (ν := ν) hfresh hselected hchildren hdepth
  refine ⟨?_, fun hcollapsed => ?_, fun hexpanded => ⟨?_, ?_⟩, ?_⟩
  · have hkept := kept_of_toggling (ν := ν) hfresh hselected hchildren hdepth
    simp only [List.forall_mem_cons]
    exact ⟨hkept false, hkept true, List.forall_mem_nil _⟩
  · rw [← refresh_expanded] at hcollapsed
    rw [hswept, ← refresh_listing]
    exact hfresh.showsBelow_open hselected hdepth hcollapsed
  · rw [← refresh_expanded] at hexpanded
    rw [hswept]
    exact hfresh.showsBelow_close hselected hdepth hexpanded
  · intro reopened
    obtain ⟨hreopened, hsame⟩ := hagain true false
    rw [← refresh_expanded] at hexpanded
    have hbelow := hfresh.showsBelow_reopen hselected hdepth hexpanded hnamed
    refine ⟨congrArg Prod.snd hreopened, hsame, ?_⟩
    exact (congrArg Prod.fst hreopened) ▸ hbelow
  · intro twice
    obtain ⟨htwice, hsame⟩ := hagain false false
    refine ⟨congrArg Prod.snd htwice, hsame, ?_⟩
    exact (congrArg Prod.fst htwice) ▸ hfresh.restored path

/-- The second node below the root, first closed and then open. -/
theorem toggles_of_run_subtree :
    let closed : List (Command Unit) := [.applyParse (.ok Node.sample), .select ⟨[1]⟩]
    let opened := closed ++ [.setExpanded ⟨[1]⟩ true]
    let s := (start {}).run closed
    let t := (start {}).run opened
    let node := Node.sample.children[1]
    let swept := t.act (.operate .toggleSubtree : Action Unit)
    (∀ command ∈ opened, command.Fits) ∧ node.children ≠ [] ∧
      (⟨[1]⟩ : NodePath).depth < levelLimit ∧
      (s.refresh.selected = some ⟨[1]⟩ ∧ s.node? ⟨[1]⟩ = some node ∧ ⟨[1]⟩ ∉ s.expanded) ∧
      (s.act (.operate .toggleSubtree : Action Unit)).1.refresh.ShowsBelow ⟨[1]⟩ [⟨[1, 0]⟩] ∧
      (t.refresh.selected = some ⟨[1]⟩ ∧ t.node? ⟨[1]⟩ = some node ∧ ⟨[1]⟩ ∈ t.expanded) ∧
      swept.1.refresh.ShowsBelow ⟨[1]⟩ [] ∧
      (swept.1.act (.operate .toggle : Action Unit)).1.refresh.ShowsBelow ⟨[1]⟩ [⟨[1, 0]⟩] := by
  intro closed opened s t node swept
  have hfits : ∀ command ∈ opened, command.Fits := by
    simp [opened, closed, Command.Fits, Node.fits_sample]
  have hchildren : node.children ≠ [] := List.cons_ne_nil _ _
  have hdepth : (⟨[1]⟩ : NodePath).depth < levelLimit := by decide
  have hcollapsed : s.refresh.selected = some ⟨[1]⟩ ∧ s.node? ⟨[1]⟩ = some node ∧
      ⟨[1]⟩ ∉ s.expanded := by
    refine ⟨by decide +kernel, rfl, ?_⟩
    rw [← Expansion.contains_iff]
    decide +kernel
  have hexpanded : t.refresh.selected = some ⟨[1]⟩ ∧ t.node? ⟨[1]⟩ = some node ∧
      ⟨[1]⟩ ∈ t.expanded := by
    refine ⟨by decide +kernel, rfl, ?_⟩
    rw [← Expansion.contains_iff]
    decide +kernel
  obtain ⟨_, hopen, _⟩ := toggles_of_run (ν := Unit) {} closed
    (fun command hmem => hfits command (List.mem_append_left _ hmem))
    ⟨[1]⟩ node hcollapsed.1 hcollapsed.2.1 hchildren hdepth
  obtain ⟨_, _, hclose, _⟩ := toggles_of_run (ν := Unit) {} opened hfits
    ⟨[1]⟩ node hexpanded.1 hexpanded.2.1 hchildren hdepth
  obtain ⟨hnone, _, _, hreopened⟩ := hclose hexpanded.2.2
  have hall := hopen hcollapsed.2.2
  have hbelow : s.listing.paths.filter ((⟨[1]⟩ : NodePath).isAncestorOf ·) = [⟨[1, 0]⟩] := by
    decide +kernel
  rw [hbelow] at hall
  exact ⟨hfits, hchildren, hdepth, hcollapsed, hall, hexpanded, hnone, hreopened⟩

end SyntaxOutline.Session
