import SyntaxOutline.Proofs.Rows.Folding
import SyntaxOutline.Proofs.Session.Clamping
import SyntaxOutline.Proofs.Session.Walk

/-! # Going down a level and up again

The first child of the selected node is a row as soon as the node is expanded, so the selection that
goes down to it stays there. The parent of a row is a row, so the selection can go up from
everywhere but the root, and nothing has to be opened or listed again for it. -/
namespace SyntaxOutline.Session

variable {κ ν : Type} {s : Session} {path parent : NodePath} {node : Node}

theorem Fresh.parent_mem_visible (h : s.Fresh) (hmem : path ∈ s.visible)
    (hparent : path.parent? = some parent) : parent ∈ s.visible := by
  obtain ⟨ordinal, rfl⟩ := NodePath.parent?_eq_some_iff.1 hparent
  rw [h.visible_eq] at hmem ⊢
  exact Listing.mem_visiblePaths_of_mem_ancestors hmem (by simp [NodePath.ancestors_child])

/-- Going up selects the row of the parent. -/
theorem Fresh.act_selectParent (h : s.Fresh) (hselected : s.selected = some path)
    (hparent : path.parent? = some parent) :
    ∃ node, s.node? parent = some node ∧
      s.act (.operate .selectParent : Action ν) = (s.showing parent node, .handled) := by
  have hmem := h.parent_mem_visible (h.selected_visible hselected) hparent
  obtain ⟨node, hnode⟩ := h.named_of_visible hmem
  have hselect : s.operate .selectParent = s.selectTarget (some parent) := by
    rw [operate, hselected, Option.bind_some, hparent]
  exact ⟨node, hnode, h.act_of_select hselect hmem hnode⟩

/-- The session with one more path expanded. -/
def opening (s : Session) (path : NodePath) : Session :=
  { s with
    expanded := s.expanded.insert path
    stale := s.stale || !s.expanded.contains path }

/-- Going down expands the selected node and selects its first child. -/
theorem Fresh.act_selectChild (h : s.Fresh) (hselected : s.selected = some path)
    (hchildren : s.listing.hasChildren path = true) :
    ∃ node, (s.opening path).node? (path.child 0) = some node ∧
      s.act (.operate .selectChild : Action ν) =
        (((s.opening path).select (path.child 0)).1, .handled) := by
  have hmem := h.selected_visible hselected
  have hexpanded : path ∈ s.expanded.insert path := Expansion.mem_insert.2 (.inl rfl)
  obtain ⟨hfirst, node, hnode⟩ := h.firstChildPath?_eq hmem hchildren hexpanded
  have hopened : (s.opening path).node? (path.child 0) = some node := hnode
  have hselect : s.selectChild = (s.opening path).select (path.child 0) := by
    rw [selectChild, hselected]
    simp only [hchildren, if_true, hfirst, selectTarget]
    rw [opening, hselected]
  refine ⟨node, hopened, h.act_of_operate hmem ?_⟩
  rw [operate, hselect]
  exact Prod.ext rfl (select_applies hopened)

theorem Fresh.child_mem_visiblePaths (h : s.Fresh) (hmem : path ∈ s.visible)
    (hchildren : s.listing.hasChildren path = true) :
    path.child 0 ∈ s.listing.visiblePaths (s.expanded.insert path) := by
  rw [h.visible_eq] at hmem
  have hsub : s.expanded ⊆ s.expanded.insert path := fun _ hq => Expansion.mem_insert.2 (.inr hq)
  refine Listing.child_mem_visiblePaths ?_ hchildren (Expansion.mem_insert.2 (.inl rfl))
  exact (Listing.visiblePaths_sublist s.tree hsub).subset hmem

/-- The selection that went down stays with the next refresh, and comes up again. -/
theorem Fresh.down_and_up (h : s.Fresh) (hselected : s.selected = some path)
    (hchildren : s.listing.hasChildren path = true) :
    let down : Session × Response ν := s.act (.operate .selectChild)
    let up : Session × Response ν := down.1.act (.operate .selectParent)
    (down.2 = .handled ∧ down.1.Shows (path.child 0) ∧
        down.1.expanded = s.expanded.insert path ∧ down.1.refresh.Shows (path.child 0)) ∧
      up.2 = .handled ∧ up.1.Shows path ∧ down.1.refresh.act (.operate .selectParent) = up := by
  intro down up
  obtain ⟨node, hnode, hdown⟩ := h.act_selectChild (ν := ν) hselected hchildren
  have hmoves : Moves Node.Fits s down.1 := moves_act s _
  have hsound : down.1.Sound := hmoves.sound h.sound
  have hlisted : down.1.Listed := hmoves.listed h.listed
  have hafter : down.1 = ((s.opening path).select (path.child 0)).1 := congrArg Prod.fst hdown
  rw [select_of_node? hnode] at hafter
  have hshown : down.1.Shows (path.child 0) := by
    rw [hafter]
    exact ⟨rfl, node, hnode, rfl⟩
  have hvisible : path.child 0 ∈ down.1.listing.visiblePaths down.1.expanded := by
    rw [hafter]
    exact h.child_mem_visiblePaths (h.selected_visible hselected) hchildren
  have hrefresh : down.1.refresh = down.1.rebuilt :=
    refresh_of_shown hsound hlisted hshown.1 hvisible
  have hstays : down.1.refresh.Shows (path.child 0) := by
    rw [hrefresh]
    exact hshown
  have hfresh : down.1.refresh.Fresh := fresh_refresh hsound hlisted
  have hagain : down.1.refresh.act (.operate .selectParent) = up := act_refresh hfresh _
  obtain ⟨above, habove, hup⟩ :=
    hfresh.act_selectParent (ν := ν) hstays.1 (path.parent?_child 0)
  rw [hagain] at hup
  have hexpanded : down.1.expanded = s.expanded.insert path := by
    rw [hafter]
    rfl
  refine ⟨⟨congrArg Prod.snd hdown, hshown, hexpanded, hstays⟩, ?_, ?_, hagain⟩
  · rw [hup]
  · rw [hup]
    exact shows_showing habove

/-- After any run, going down from a node with children expands that node and no other, and leads to
its first child, which stays selected; going up from there leads back. Going up from a row leads to
the row of its parent, and changes neither the rows nor what is expanded. -/
theorem levels_of_run (settings : Settings) (commands : List (Command κ))
    (hfits : ∀ command ∈ commands, command.Fits) :
    let s := (start settings).run commands
    (∀ path node, s.refresh.selected = some path → s.node? path = some node →
        node.children ≠ [] →
        let down : Session × Response ν := s.act (.operate .selectChild)
        let up : Session × Response ν := down.1.act (.operate .selectParent)
        (down.2 = .handled ∧ down.1.Shows (path.child 0) ∧
            (∀ q, q ∈ down.1.expanded ↔ q = path ∨ q ∈ s.expanded) ∧
            down.1.refresh.Shows (path.child 0)) ∧
          up.2 = .handled ∧ up.1.Shows path ∧
            down.1.refresh.act (.operate .selectParent) = up) ∧
      ∀ path, s.refresh.selected = some path → path ≠ NodePath.root →
        ∃ parent, path.parent? = some parent ∧ parent ∈ s.refresh.visible ∧
          let up : Session × Response ν := s.act (.operate .selectParent)
          up.2 = .handled ∧ up.1.Shows parent ∧ up.1.expanded = s.expanded ∧
            up.1.refresh.visible = s.refresh.visible := by
  intro s
  have hfresh : s.refresh.Fresh := fresh_run settings hfits
  refine ⟨fun path node hselected hnode hchildren => ?_, fun path hselected hne => ?_⟩
  · have hnamed : s.refresh.node? path = some node := by rwa [refresh_node?]
    have hbranch := hfresh.hasChildren_of_selected hselected hnamed hchildren
    have hwalk := hfresh.down_and_up (ν := ν) hselected hbranch
    simp only [act_refresh hfresh, refresh_expanded] at hwalk
    obtain ⟨⟨hhandled, hshown, hexpanded, hstays⟩, hback⟩ := hwalk
    refine ⟨⟨hhandled, hshown, fun q => ?_, hstays⟩, hback⟩
    rw [hexpanded, Expansion.mem_insert]
  · obtain ⟨parent, hparent⟩ : ∃ parent, path.parent? = some parent := by
      rw [← Option.ne_none_iff_exists', Ne, NodePath.parent?_eq_none_iff]
      exact hne
    have hmem := hfresh.parent_mem_visible (hfresh.selected_visible hselected) hparent
    obtain ⟨node, hnode, hup⟩ := hfresh.act_selectParent (ν := ν) hselected hparent
    rw [act_refresh hfresh] at hup
    have hkept : (s.refresh.showing parent node).refresh.visible = s.refresh.visible := by
      rw [(hfresh.showing hmem hnode).refresh_eq]
      rfl
    refine ⟨parent, hparent, hmem, ?_⟩
    rw [hup]
    exact ⟨rfl, shows_showing hnode, s.refresh_expanded, hkept⟩

/-- Going down from a collapsed node and up again; the node itself is right below the root. -/
theorem levels_of_run_collapsed :
    let commands : List (Command Unit) :=
      [.applyParse (.ok Node.sample), .select ⟨[1]⟩]
    let s := (start {}).run commands
    let down := s.act (.operate .selectChild : Action Unit)
    let up := down.1.act (.operate .selectParent : Action Unit)
    (∀ command ∈ commands, command.Fits) ∧
      (∃ node, s.refresh.selected = some ⟨[1]⟩ ∧ s.node? ⟨[1]⟩ = some node ∧ node.children ≠ []) ∧
      ⟨[1]⟩ ∉ s.expanded ∧ down.1.refresh.Shows ⟨[1, 0]⟩ ∧ up.1.Shows ⟨[1]⟩ ∧
      (⟨[1]⟩ : NodePath) ≠ NodePath.root ∧ NodePath.root ∈ s.refresh.visible := by
  intro commands s down up
  have hfits : ∀ command ∈ commands, command.Fits := by
    simp [commands, Command.Fits, Node.fits_sample]
  have hselected : s.refresh.selected = some ⟨[1]⟩ := by decide +kernel
  have hcollapsed : ⟨[1]⟩ ∉ s.expanded := by
    rw [← Expansion.contains_iff]
    decide +kernel
  have hany : (s.node? ⟨[1]⟩).any (!·.children.isEmpty) = true := by decide +kernel
  obtain ⟨node, hnode, hsome⟩ := (Option.any_eq_true _ _).1 hany
  have hchildren : node.children ≠ [] := by simpa using hsome
  have hroot : (⟨[1]⟩ : NodePath) ≠ NodePath.root := by decide
  obtain ⟨hdown, hup⟩ := levels_of_run (ν := Unit) {} commands hfits
  obtain ⟨⟨_, _, _, hstays⟩, _, hback, _⟩ := hdown ⟨[1]⟩ node hselected hnode hchildren
  obtain ⟨parent, hparent, hmem, _⟩ := hup ⟨[1]⟩ hselected hroot
  obtain rfl : NodePath.root = parent := Option.some.inj hparent
  exact ⟨hfits, ⟨node, hselected, hnode, hchildren⟩, hcollapsed, hstays, hback, hroot, hmem⟩

end SyntaxOutline.Session
