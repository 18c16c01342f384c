import SyntaxOutline.Proofs.Node.Locate
import SyntaxOutline.Proofs.Session.Fresh

/-! # The selection made by the cursor

The cursor selects the innermost node that covers it. When that node is hidden, a refresh moves the
selection up; since all nodes above it cover the cursor too, so does whatever is selected, however
often nodes are opened and closed. -/
namespace SyntaxOutline

/-- Whether the command does no more than open and close nodes, or refresh the rows. -/
def Command.isFolding {κ : Type} : Command κ → Bool
  | .toggle _ => true
  | .setExpanded _ _ => true
  | .expandAll => true
  | .collapseAll => true
  | .setExpansion _ => true
  | .refresh => true
  | _ => false

namespace Session

variable {κ : Type} {s : Session} {n : Node} {path q : NodePath} {node : Node} {offset : Nat}

theorem locate?_eq_some (h : s.locate? offset = some path) :
    ∃ n m, s.tree = some n ∧ n.follow? path.steps = some m ∧ n.CoversAlong offset path.steps := by
  obtain ⟨⟨m, found⟩, hfound, rfl⟩ := Option.map_eq_some_iff.1 h
  obtain ⟨n, htree, hlocate⟩ := Option.bind_eq_some_iff.1 hfound
  obtain ⟨hfollow, halong⟩ := Node.locate?_eq_some hlocate
  exact ⟨n, m, htree, hfollow, halong⟩

/-- A refresh leaves a selection where it is or moves it up, and never drops it: at the latest the
root is found to show. -/
theorem selected_refresh (h : s.Sound) (hselected : s.selected = some q) :
    ∃ p, s.refresh.selected = some p ∧ p.steps <+: q.steps := by
  rw [refresh]
  split
  next =>
    rcases clampSelection_cases (s := { s with visible := _, stale := false }) h.names with
      ⟨heq, _⟩ | ⟨hidden, ancestor, _, hhidden, _, hfind, _, _, heq⟩ |
      ⟨hidden, hhidden, hnotShown, hfind, _⟩
    · rw [heq]
      exact ⟨q, hselected, List.prefix_rfl⟩
    · obtain rfl : q = hidden := Option.some.inj (hselected.symm.trans hhidden)
      have habove : ancestor ∈ q.ancestors :=
        List.mem_reverse.1 (List.mem_of_find?_eq_some hfind)
      rw [heq]
      exact ⟨ancestor, rfl, NodePath.prefix_of_mem_ancestors habove⟩
    · obtain rfl : q = hidden := Option.some.inj (hselected.symm.trans hhidden)
      obtain ⟨node, hnode⟩ := h.names q hselected
      obtain ⟨n, htree, _⟩ := Option.bind_eq_some_iff.1 hnode
      have hroot : NodePath.root ∈ s.listing.visiblePaths s.expanded := by
        rw [listing, htree]
        exact Listing.root_mem_visiblePaths n s.expanded
      have hne : q ≠ NodePath.root := fun heq => hnotShown (heq ▸ hroot)
      have habove : NodePath.root ∈ q.ancestors.reverse :=
        List.mem_reverse.2 (NodePath.root_mem_ancestors hne)
      exact absurd (decide_eq_true hroot) (List.find?_eq_none.1 hfind _ habove)
  next => exact ⟨q, hselected, List.prefix_rfl⟩

/-- The tree is the given one, and the node at a path of it or a node above that is selected. -/
structure Follows (s : Session) (n : Node) (path : NodePath) : Prop where
  sound : s.Sound
  tree_eq : s.tree = some n
  selected : ∃ q, s.selected = some q ∧ q.steps <+: path.steps

theorem Follows.setExpansion (h : s.Follows n path) (expanded : Expansion) :
    (s.setExpansion expanded).Follows n path where
  sound := sound_move (P := Node.Fits) (fun _ hfits => hfits) (.setExpansion s expanded) h.sound
  tree_eq := h.tree_eq
  selected := h.selected

theorem Follows.refresh (h : s.Follows n path) : s.refresh.Follows n path where
  sound := sound_refresh h.sound
  tree_eq := by rw [refresh_tree, h.tree_eq]
  selected := by
    obtain ⟨q, hselected, hq⟩ := h.selected
    obtain ⟨p, hrefreshed, hp⟩ := selected_refresh h.sound hselected
    exact ⟨p, hrefreshed, hp.trans hq⟩

theorem Follows.perform (h : s.Follows n path) {command : Command κ}
    (hfolding : command.isFolding = true) : (s.perform command).1.Follows n path := by
  cases command with
  | toggle path => exact h.setExpansion _
  | setExpanded path expanded => exact h.setExpansion _
  | expandAll => exact h.setExpansion _
  | collapseAll => exact h.setExpansion _
  | setExpansion expanded => exact h.setExpansion expanded
  | refresh => exact h.refresh
  | _ => cases hfolding

theorem Follows.run (h : s.Follows n path) {commands : List (Command κ)}
    (hfolding : ∀ command ∈ commands, command.isFolding = true) :
    (s.run commands).Follows n path := by
  induction commands generalizing s with
  | nil => exact h
  | cons command rest ih =>
    have hfirst := h.perform (hfolding command List.mem_cons_self)
    exact ih hfirst fun c hc => hfolding c (List.mem_cons_of_mem command hc)

/-- What is selected then covers what all nodes on the way to the path cover. -/
theorem Follows.covers (h : s.Follows n path) {m : Node} (hm : n.follow? path.steps = some m)
    (halong : n.CoversAlong offset path.steps) :
    ∃ q node, s.selected = some q ∧ (q = path ∨ q.isAncestorOf path = true) ∧
      s.node? q = some node ∧ s.highlight = some node.span ∧ node.span.covers offset = true := by
  obtain ⟨q, hselected, habove⟩ := h.selected
  obtain ⟨node, hnode, hlit⟩ := h.sound.named q hselected
  obtain ⟨k, hk⟩ := Node.exists_follow?_of_prefix_steps habove hm
  have hat : s.node? q = some k := h.sound.node?_of_follow? h.tree_eq hk
  obtain rfl : node = k := Option.some.inj (hnode.symm.trans hat)
  exact ⟨q, node, hselected, NodePath.prefix_steps_iff.1 habove, hnode, hlit,
    halong q.steps node habove hk⟩

theorem moveCursor_snd (s : Session) (offset : Nat) :
    (s.moveCursor offset).2 = s.locate? offset := by
  rw [moveCursor]
  cases s.locate? offset with
  | none => rfl
  | some path => rfl

/-- With or without opening the outline down to it, the located node gets selected. -/
theorem moveCursor_of_locate? (hlocate : s.locate? offset = some path)
    (hnode : s.node? path = some node) :
    (s.moveCursor offset).1.tree = s.tree ∧ (s.moveCursor offset).1.selected = some path := by
  have hselect : ∀ opened : Session, opened.tree = s.tree →
      (opened.select path).1.tree = s.tree ∧ (opened.select path).1.selected = some path := by
    intro opened htree
    have hopened : opened.node? path = some node := by
      rw [node?, htree]
      exact hnode
    rw [select_of_node? hopened]
    exact ⟨htree, rfl⟩
  rw [moveCursor, hlocate]
  apply hselect
  split
  next => rfl
  next => rfl

theorem follows_moveCursor (h : s.Sound) (hfound : (s.moveCursor offset).2 = some path) :
    ∃ n m, (s.moveCursor offset).1.Follows n path ∧ n.follow? path.steps = some m ∧
      n.CoversAlong offset path.steps := by
  have hlocate : s.locate? offset = some path := by rwa [moveCursor_snd] at hfound
  obtain ⟨n, m, htree, hfollow, halong⟩ := locate?_eq_some hlocate
  have hnode : s.node? path = some m := h.node?_of_follow? htree hfollow
  obtain ⟨hkept, hselected⟩ := moveCursor_of_locate? hlocate hnode
  have hsound : (s.moveCursor offset).1.Sound := (moves_moveCursor s offset).sound h
  exact ⟨n, m, ⟨hsound, hkept.trans htree, path, hselected, List.prefix_rfl⟩, hfollow, halong⟩

/-- After any run the cursor may find a node; then however nodes are opened and closed, that node or
one above it stays selected, and what is highlighted covers the cursor. -/
theorem cursor_of_run (settings : Settings) (commands : List (Command κ))
    (hfits : ∀ command ∈ commands, command.Fits) (offset : Nat) (path : NodePath)
    (hfound : (((start settings).run commands).moveCursor offset).2 = some path)
    (more : List (Command κ)) (hfolding : ∀ command ∈ more, command.isFolding = true) :
    let s := (((start settings).run commands).moveCursor offset).1.run more
    ∃ q node, s.selected = some q ∧ (q = path ∨ q.isAncestorOf path = true) ∧
      s.node? q = some node ∧ s.highlight = some node.span ∧ node.span.covers offset = true := by
  have hsound := sound_run settings fun command hmem => (hfits command hmem).brings
  obtain ⟨n, m, hfollows, hm, halong⟩ := follows_moveCursor hsound hfound
  exact (hfollows.run hfolding).covers hm halong

/-- The selection goes up twice, and is left on a node whose children reach beyond it. -/
theorem cursor_of_run_collapsed :
    let straying : Node :=
      { kind := "File", span := ⟨0, 30⟩
        children :=
          [{ kind := "FuncDecl", span := ⟨10, 40⟩
             children := [{ kind := "Ident", span := ⟨5, 35⟩ }] }] }
    let commands : List (Command Unit) := [.applyParse (.ok straying)]
    let found := ((start {}).run commands).moveCursor 20
    let more : List (Command Unit) := [.toggle ⟨[0]⟩, .refresh, .collapseAll, .refresh, .expandAll]
    (∀ command ∈ commands, command.Fits) ∧ found.2 = some ⟨[0, 0]⟩ ∧
      (∀ command ∈ more, command.isFolding = true) ∧
      (found.1.run more).selected = some NodePath.root ∧
      ∃ span, (found.1.run more).highlight = some span ∧ span.covers 20 = true := by
  intro straying commands found more
  have hfits : ∀ command ∈ commands, command.Fits := by
    simp [commands, straying, Command.Fits, Node.Fits, Node.all_mk, Text.wordLimit]
  have hfound : found.2 = some ⟨[0, 0]⟩ := by decide +kernel
  have hfolding : ∀ command ∈ more, command.isFolding = true := by
    simp [more, Command.isFolding]
  have hselected : (found.1.run more).selected = some NodePath.root := by decide +kernel
  obtain ⟨_, node, _, _, _, hlit, hcovers⟩ :=
    cursor_of_run {} commands hfits 20 ⟨[0, 0]⟩ hfound more hfolding
  exact ⟨hfits, hfound, hfolding, hselected, node.span, hlit, hcovers⟩

end Session

end SyntaxOutline
