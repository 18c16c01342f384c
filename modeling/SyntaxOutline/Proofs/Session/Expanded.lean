import SyntaxOutline.Proofs.Expansion.Members
import SyntaxOutline.Proofs.Session.Cursor

/-! # Expanded nodes of a session

Only a host that names the nodes to expand can expand a path without children. All else that a
session does to a tree expands nodes of that tree that have children, and a new tree keeps only the
expanded paths that lead to such nodes in it. A failed parse keeps all of them for the next tree. -/
namespace SyntaxOutline

/-- Whether the command itself says which paths are expanded or collapsed. -/
def Command.namesExpanded {κ : Type} : Command κ → Bool
  | .toggle _ => true
  | .setExpanded _ _ => true
  | .setExpansion _ => true
  | _ => false

namespace Session

variable {κ : Type} {s s' s'' : Session}

/-- Every expanded path is listed in the tree, if there is one, and has children there. -/
def Pruned (s : Session) : Prop :=
  s.tree.isSome → ∀ path ∈ s.expanded, s.listing.hasChildren path = true

/-- The tree stays, and what comes to be expanded is listed in it and has children. -/
structure Grows (s s' : Session) : Prop where
  tree_eq : s'.tree = s.tree
  of_mem : ∀ path ∈ s'.expanded, path ∈ s.expanded ∨ s.listing.hasChildren path = true

theorem Grows.same (htree : s'.tree = s.tree) (hexpanded : s'.expanded = s.expanded) :
    Grows s s' where
  tree_eq := htree
  of_mem := by
    rw [hexpanded]
    exact fun _ => .inl

theorem Grows.refl (s : Session) : Grows s s := .same rfl rfl

theorem Grows.trans (h : Grows s s') (h' : Grows s' s'') : Grows s s'' where
  tree_eq := h'.tree_eq.trans h.tree_eq
  of_mem := by
    intro path hpath
    rcases h'.of_mem path hpath with hmem | hlisted
    · exact h.of_mem path hmem
    · rw [listing, h.tree_eq] at hlisted
      exact .inr hlisted

theorem Pruned.grow (h : s.Pruned) (hgrows : Grows s s') : s'.Pruned := by
  intro htree path hpath
  rw [hgrows.tree_eq] at htree
  rw [listing, hgrows.tree_eq]
  rcases hgrows.of_mem path hpath with hmem | hlisted
  · exact h htree path hmem
  · exact hlisted

theorem grows_select (s : Session) (path : NodePath) : Grows s (s.select path).1 := by
  obtain ⟨_, _, _, heq⟩ := s.select_frame path
  rw [heq]
  exact .same rfl rfl

theorem grows_selectTarget (s : Session) (target : Option NodePath) :
    Grows s (s.selectTarget target).1 := by
  cases target with
  | none => exact .refl s
  | some path => exact grows_select s path

theorem grows_setExpansion {expanded : Expansion}
    (h : ∀ path ∈ expanded, path ∈ s.expanded ∨ s.listing.hasChildren path = true) :
    Grows s (s.setExpansion expanded) where
  tree_eq := rfl
  of_mem := h

theorem grows_expandAll (s : Session) : Grows s s.expandAll :=
  grows_setExpansion fun _ hpath => .inr (Expansion.mem_expandAll.1 hpath)

theorem grows_collapseAll (s : Session) : Grows s s.collapseAll :=
  grows_setExpansion fun path hpath => absurd hpath (s.expanded.not_mem_collapseAll path)

/-- What is expanded to show a located node are the nodes above it. -/
theorem grows_moveCursor (s : Session) (offset : Nat) : Grows s (s.moveCursor offset).1 := by
  rw [moveCursor]
  cases hlocate : s.locate? offset with
  | none => exact .same rfl rfl
  | some path =>
    refine Grows.trans ?_ (grows_select _ path)
    by_cases hfollow : s.settings.followCursor = true
    · rw [if_pos hfollow]
      refine grows_setExpansion fun p hp => ?_
      obtain ⟨n, m, htree, hfollow, _⟩ := locate?_eq_some hlocate
      rcases Expansion.mem_expandTo.1 hp with habove | hmem
      · have hbranches := Node.branches_of_mem_ancestors hfollow habove
        rw [listing, htree]
        exact .inr (Listing.hasChildren_ofTree_iff.2 hbranches)
      · exact .inl hmem
    · rw [if_neg hfollow]
      exact .refl s

theorem grows_insert {path : NodePath} (h : s.listing.hasChildren path = true) (stale : Bool) :
    Grows s { s with expanded := s.expanded.insert path, stale } where
  tree_eq := rfl
  of_mem := by
    intro p hp
    rcases Expansion.mem_insert.1 hp with rfl | hmem
    · exact .inr h
    · exact .inl hmem

theorem grows_selectChild (s : Session) : Grows s s.selectChild.1 := by
  rw [selectChild]
  split
  next => exact .refl s
  next path _ =>
    split
    next hchildren => exact (grows_insert hchildren _).trans (grows_selectTarget _ _)
    next => exact .refl s

theorem grows_toggleSelected (s : Session) (subtree : Bool) :
    Grows s (s.toggleSelected subtree).1 := by
  rw [toggleSelected]
  split
  next => exact .refl s
  next path _ =>
    split
    next hchildren =>
      refine grows_setExpansion fun p hp => ?_
      split at hp
      next =>
        rcases Expansion.mem_toggle.1 hp with ⟨hmem, _⟩ | ⟨rfl, _⟩
        · exact .inl hmem
        · exact .inr hchildren
      next =>
        split at hp
        next => exact .inl (Expansion.mem_collapseSubtree.1 hp).1
        next =>
          rcases Expansion.mem_expandSubtree.1 hp with ⟨_, hlisted⟩ | hmem
          · exact .inr hlisted
          · exact .inl hmem
    next => exact .refl s

theorem grows_operate (s : Session) (operation : Operation) :
    Grows s (s.operate operation).1 := by
  cases operation with
  | selectPrevious => exact grows_selectTarget s _
  | selectNext => exact grows_selectTarget s _
  | selectParent => exact grows_selectTarget s _
  | selectChild => exact grows_selectChild s
  | selectFirst => exact grows_selectTarget s _
  | selectLast => exact grows_selectTarget s _
  | toggle => exact grows_toggleSelected s false
  | toggleSubtree => exact grows_toggleSelected s true
  | expandAll => exact grows_expandAll s
  | collapseAll => exact grows_collapseAll s

theorem grows_refresh (s : Session) : Grows s s.refresh :=
  .same s.refresh_tree s.refresh_expanded

theorem grows_act (s : Session) (action : Action κ) : Grows s (s.act action).1 := by
  cases action with
  | custom value => exact .refl s
  | operate operation =>
    rw [act]
    by_cases hempty : s.refresh.visible.isEmpty = true
    · simp only [hempty, if_true]
      exact grows_refresh s
    · simp only [hempty]
      exact (grows_refresh s).trans (grows_operate s.refresh operation)

theorem grows_press (s : Session) (custom : KeyEvent → Option κ) (key : KeyEvent) :
    Grows s (s.press custom key).1 := by
  rw [press]
  cases s.profile.resolveWith custom key with
  | none => exact .refl s
  | some action => exact grows_act s action

theorem pruned_applyParse (s : Session) (outcome : Except Failure Node) :
    (s.applyParse outcome).Pruned := by
  cases outcome with
  | error failure =>
    intro htree
    cases htree
  | ok tree =>
    intro _ path hpath
    exact Expansion.hasChildren_of_mem_renewed hpath

/-- A command that does not name the nodes to expand leaves no path expanded but those of nodes with
children. -/
theorem pruned_perform {command : Command κ} (hcommand : command.namesExpanded = false)
    (h : s.Pruned) : (s.perform command).1.Pruned := by
  cases command with
  | setSource text => exact h
  | applyParse outcome => exact pruned_applyParse s outcome
  | applyReply text detail => exact pruned_applyParse s _
  | moveCursor offset => exact h.grow (grows_moveCursor s offset)
  | select path => exact h.grow (grows_select s path)
  | clearSelection => exact h
  | toggle path => cases hcommand
  | setExpanded path expanded => cases hcommand
  | expandAll => exact h.grow (grows_expandAll s)
  | collapseAll => exact h.grow (grows_collapseAll s)
  | setExpansion expanded => cases hcommand
  | refresh => exact h.grow (grows_refresh s)
  | act action => exact h.grow (grows_act s action)
  | press custom key => exact h.grow (grows_press s custom key)
  | setProfile profile => exact h
  | cycleProfile => exact h

theorem pruned_run {commands : List (Command κ)}
    (hcommands : ∀ command ∈ commands, command.namesExpanded = false) (h : s.Pruned) :
    (s.run commands).Pruned := by
  induction commands generalizing s with
  | nil => exact h
  | cons command rest ih =>
    rw [run_cons]
    have hfirst := pruned_perform (hcommands command List.mem_cons_self) h
    exact ih (fun c hc => hcommands c (List.mem_cons_of_mem command hc)) hfirst

/-- After any run in which the host does not name the nodes to expand, every expanded path leads to
a node of the tree that has children. -/
theorem expanded_of_run (settings : Settings) (commands : List (Command κ))
    (hcommands : ∀ command ∈ commands, command.namesExpanded = false) :
    let s := (start settings).run commands
    ∀ n, s.tree = some n → ∀ path ∈ s.expanded,
      s.listing.hasChildren path = true ∧
        ∃ node, n.follow? path.steps = some node ∧ node.children ≠ [] ∧
          ((∀ command ∈ commands, command.Fits) → s.node? path = some node) := by
  intro s n htree path hpath
  have hstart : (start settings).Pruned := by
    intro hsome
    cases hsome
  have hlisted : s.listing.hasChildren path = true :=
    pruned_run hcommands hstart (Option.isSome_of_mem htree) path hpath
  have hbranches : n.Branches path := by
    rw [listing, htree] at hlisted
    exact Listing.hasChildren_ofTree_iff.1 hlisted
  obtain ⟨node, hfollow, hchildren⟩ := hbranches
  refine ⟨hlisted, node, hfollow, hchildren, fun hfits => ?_⟩
  have hsound : s.Sound := sound_run settings fun command hmem => (hfits command hmem).brings
  rw [node?, htree]
  exact (hsound.fits n htree).at?_of_follow? hfollow

/-- A node that was opened for the cursor is still expanded after a parse that failed and one that
brought its tree again; a leaf at its path would not be. -/
theorem expanded_of_run_reparsed :
    let commands : List (Command Unit) :=
      [.applyParse (.ok Node.sample), .moveCursor 20, .applyParse (.error .missingTree),
        .applyParse (.ok Node.sample), .act (.operate .selectFirst)]
    (∀ command ∈ commands, command.namesExpanded = false) ∧
      (∀ command ∈ commands, command.Fits) ∧
      ⟨[1]⟩ ∈ ((start {}).run commands).expanded ∧
      ∃ node, ((start {}).run commands).node? ⟨[1]⟩ = some node ∧ node.children ≠ [] := by
  intro commands
  have hcommands : ∀ command ∈ commands, command.namesExpanded = false := by
    simp [commands, Command.namesExpanded]
  have hfits : ∀ command ∈ commands, command.Fits := by
    simp [commands, Command.Fits, Node.fits_sample]
  have hexpanded : ⟨[1]⟩ ∈ ((start {}).run commands).expanded :=
    Expansion.contains_iff.1 (by decide +kernel)
  have hsome : ((start {}).run commands).tree.isSome = true := by decide +kernel
  obtain ⟨n, htree⟩ := Option.isSome_iff_exists.1 hsome
  obtain ⟨_, node, _, hchildren, hnode⟩ :=
    expanded_of_run {} commands hcommands n htree ⟨[1]⟩ hexpanded
  exact ⟨hcommands, hfits, hexpanded, node, hnode hfits, hchildren⟩

end Session

end SyntaxOutline
