import SyntaxOutline.Proofs.Rows.Steps
import SyntaxOutline.Proofs.Session.Fresh

/-! # Which operations apply

An operation on an outline with rows is blocked at the ends of the rows, above the root, and at a
node without children. A blocked operation changes nothing; every other one applies. In particular
the child that is to be selected can always be selected once its parent has been expanded for it. -/
namespace SyntaxOutline.Session

variable {s : Session} {path : NodePath} {node : Node}

/-- No node is selected that has children. -/
def NothingBelow (s : Session) : Prop :=
  s.selected = none ∨
    ∃ path node, s.selected = some path ∧ s.node? path = some node ∧ node.children = []

/-- Whether an operation does not apply to a session that has rows. -/
def Blocked (s : Session) : Operation → Prop
  | .selectPrevious => ∃ path, s.selected = some path ∧ s.visible.head? = some path
  | .selectNext => ∃ path, s.selected = some path ∧ s.visible.getLast? = some path
  | .selectParent => s.selected = none ∨ s.selected = some NodePath.root
  | .selectChild | .toggle | .toggleSubtree => s.NothingBelow
  | .selectFirst | .selectLast | .expandAll | .collapseAll => False

/-- The result is a refusal that changes nothing if the operation is blocked, else it applied. -/
def Decides (s : Session) (blocked : Prop) (result : Session × Bool) : Prop :=
  (blocked ∧ result = (s, false)) ∨ (¬ blocked ∧ result.2 = true)

theorem Decides.of_iff {blocked blocked' : Prop} {result : Session × Bool}
    (h : s.Decides blocked result) (hiff : blocked ↔ blocked') : s.Decides blocked' result := by
  rw [Decides, ← hiff]
  exact h

theorem select_applies (h : s.node? path = some node) : (s.select path).2 = true := by
  rw [select_of_node? h]

theorem selectTarget_decides {target : Option NodePath}
    (hnamed : ∀ path, target = some path → ∃ node, s.node? path = some node) :
    s.Decides (target = none) (s.selectTarget target) := by
  cases target with
  | none => exact .inl ⟨rfl, rfl⟩
  | some path =>
    obtain ⟨node, hnode⟩ := hnamed path rfl
    exact .inr ⟨by simp, select_applies hnode⟩

theorem stepTarget_visible {direction : NodePath → List NodePath → Option NodePath}
    (hmem : ∀ path q, direction path s.visible = some q → q ∈ s.visible)
    (h : s.stepTarget direction = some path) : path ∈ s.visible := by
  rw [stepTarget] at h
  cases hselected : s.selected with
  | none =>
    rw [hselected] at h
    exact List.mem_of_mem_head? h
  | some current =>
    rw [hselected] at h
    exact hmem current path h

theorem Fresh.step_decides (h : s.Fresh) (hrows : s.visible ≠ [])
    {direction : NodePath → List NodePath → Option NodePath} {last : Option NodePath}
    (hmem : ∀ path q, direction path s.visible = some q → q ∈ s.visible)
    (hlast : ∀ path ∈ s.visible, direction path s.visible = none ↔ last = some path) :
    s.Decides (∃ path, s.selected = some path ∧ last = some path)
      (s.selectTarget (s.stepTarget direction)) := by
  refine (selectTarget_decides fun q hq => ?_).of_iff ?_
  · exact h.named_of_visible (stepTarget_visible hmem hq)
  · rw [stepTarget]
    cases hselected : s.selected with
    | none => simpa using hrows
    | some current => simpa using hlast current (h.selected_visible hselected)

theorem Fresh.selectParent_decides (h : s.Fresh) :
    s.Decides (s.Blocked .selectParent) (s.selectTarget (s.selected.bind (·.parent?))) := by
  refine (selectTarget_decides fun p hp => ?_).of_iff ?_
  · obtain ⟨path, hselected, hparent⟩ := Option.bind_eq_some_iff.1 hp
    obtain ⟨node, hnode⟩ := h.sound.names path hselected
    obtain ⟨ordinal, rfl⟩ := NodePath.parent?_eq_some_iff.1 hparent
    exact node?_of_ancestor hnode (by simp [NodePath.ancestors_child])
  · rw [Option.bind_eq_none_iff, Blocked]
    cases s.selected with
    | none => simp
    | some path => simp [NodePath.parent?_eq_none_iff]

theorem Fresh.hasChildren_eq (h : s.Fresh) (hmem : path ∈ s.visible)
    (hnode : s.node? path = some node) :
    s.listing.hasChildren path = !node.children.isEmpty := by
  obtain ⟨named, hnamed, hget⟩ := h.node_of_visible hmem
  obtain rfl : node = named := Option.some.inj (hnode.symm.trans hnamed)
  rw [Listing.hasChildren, hget, Option.any_some, Entry.hasChildren_ofNode]

theorem Fresh.hasChildren_of_selected (h : s.Fresh) (hselected : s.selected = some path)
    (hnode : s.node? path = some node) (hsome : node.children ≠ []) :
    s.listing.hasChildren path = true := by
  rw [h.hasChildren_eq (h.selected_visible hselected) hnode]
  simpa using hsome

theorem Fresh.nothingBelow_iff (h : s.Fresh) (hselected : s.selected = some path) :
    s.NothingBelow ↔ s.listing.hasChildren path = false := by
  obtain ⟨node, hnode⟩ := h.sound.names path hselected
  rw [h.hasChildren_eq (h.selected_visible hselected) hnode]
  constructor
  · rintro (hnone | ⟨q, m, hq, hm, hleaf⟩)
    · rw [hnone] at hselected
      cases hselected
    · obtain rfl : path = q := Option.some.inj (hselected.symm.trans hq)
      obtain rfl : node = m := Option.some.inj (hnode.symm.trans hm)
      simp [hleaf]
  · intro hleaf
    exact .inr ⟨path, node, hselected, hnode, by simpa using hleaf⟩

/-- The first child of an expanded row with children, which the tree has. -/
theorem Fresh.firstChildPath?_eq (h : s.Fresh) {expanded : Expansion} (hmem : path ∈ s.visible)
    (hchildren : s.listing.hasChildren path = true) (hexpanded : path ∈ expanded) :
    firstChildPath? s.listing expanded path = some (path.child 0) ∧
      ∃ c, s.node? (path.child 0) = some c := by
  constructor
  · have hcontains : expanded.contains path = true := Expansion.contains_iff.2 hexpanded
    rw [listing, firstChildPath?_ofTree]
    exact if_pos (Bool.and_eq_true_iff.2 ⟨hchildren, hcontains⟩)
  · obtain ⟨node, hnode, _⟩ := h.node_of_visible hmem
    have hne : node.children ≠ [] := by
      rw [h.hasChildren_eq hmem hnode] at hchildren
      simpa using hchildren
    obtain ⟨c, rest, hcons⟩ := List.exists_cons_of_ne_nil hne
    obtain ⟨n, htree, hn⟩ := Option.bind_eq_some_iff.1 hnode
    refine ⟨c, ?_⟩
    rw [node?, htree, Option.bind_some, n.at?_child path (by decide), hn, Option.bind_some, hcons]
    rfl

/-- Expanding the selected node leaves the tree as it is, so its first child is found. -/
theorem Fresh.selectChild_decides (h : s.Fresh) : s.Decides s.NothingBelow s.selectChild := by
  cases hselected : s.selected with
  | none => exact .inl ⟨.inl hselected, by rw [selectChild, hselected]⟩
  | some path =>
    refine Decides.of_iff ?_ (h.nothingBelow_iff hselected).symm
    rw [selectChild, hselected]
    cases hchildren : s.listing.hasChildren path with
    | false => exact .inl ⟨rfl, by simp [hchildren]⟩
    | true =>
      have hexpanded : path ∈ s.expanded.insert path := Expansion.mem_insert.2 (.inl rfl)
      obtain ⟨hfirst, c, hc⟩ :=
        h.firstChildPath?_eq (h.selected_visible hselected) hchildren hexpanded
      refine .inr ⟨by simp, ?_⟩
      simp only [hchildren, if_true, hfirst, selectTarget]
      exact select_applies hc

theorem Fresh.toggleSelected_decides (h : s.Fresh) (subtree : Bool) :
    s.Decides s.NothingBelow (s.toggleSelected subtree) := by
  cases hselected : s.selected with
  | none => exact .inl ⟨.inl hselected, by rw [toggleSelected, hselected]⟩
  | some path =>
    refine Decides.of_iff ?_ (h.nothingBelow_iff hselected).symm
    rw [toggleSelected, hselected]
    cases hchildren : s.listing.hasChildren path with
    | false => exact .inl ⟨rfl, by simp [hchildren]⟩
    | true => exact .inr ⟨by simp, by simp [hchildren]⟩

theorem Fresh.operate_decides (h : s.Fresh) (hrows : s.visible ≠ []) (operation : Operation) :
    s.Decides (s.Blocked operation) (s.operate operation) := by
  have hend : ∀ target : Option NodePath, target ≠ none →
      (∀ path, target = some path → path ∈ s.visible) →
      s.Decides False (s.selectTarget target) := by
    intro target hsome hmem
    refine (selectTarget_decides fun path hpath => ?_).of_iff (by simpa using hsome)
    exact h.named_of_visible (hmem path hpath)
  cases operation with
  | selectPrevious =>
    exact h.step_decides hrows (fun _ _ => mem_of_previousPath?)
      fun path hpath => previousPath?_eq_none_iff h.nodup_visible hpath
  | selectNext =>
    exact h.step_decides hrows (fun _ _ => mem_of_nextPath?)
      fun path hpath => nextPath?_eq_none_iff h.nodup_visible hpath
  | selectParent => exact h.selectParent_decides
  | selectChild => exact h.selectChild_decides
  | selectFirst => exact hend _ (by simpa using hrows) fun _ => List.mem_of_mem_head?
  | selectLast => exact hend _ (by simpa using hrows) fun _ => List.mem_of_getLast?
  | toggle => exact h.toggleSelected_decides false
  | toggleSubtree => exact h.toggleSelected_decides true
  | expandAll => exact .inr ⟨id, rfl⟩
  | collapseAll => exact .inr ⟨id, rfl⟩

/-- An action is refused, leaving no more than a refresh, or carried out. -/
theorem act_cases (ν : Type) (h : s.refresh.Fresh) (operation : Operation) :
    ((s.refresh.visible = [] ∨ s.refresh.Blocked operation) ∧
        s.act (.operate operation : Action ν) = (s.refresh, .unhandled)) ∨
      (¬ (s.refresh.visible = [] ∨ s.refresh.Blocked operation) ∧
        s.act (.operate operation : Action ν) = ((s.refresh.operate operation).1, .handled)) := by
  by_cases hrows : s.refresh.visible = []
  · refine .inl ⟨.inl hrows, ?_⟩
    simp [act, hrows]
  · rcases h.operate_decides hrows operation with ⟨hblocked, heq⟩ | ⟨hfree, happlied⟩
    · refine .inl ⟨.inr hblocked, ?_⟩
      simp [act, hrows, heq]
    · refine .inr ⟨by simp [hrows, hfree], ?_⟩
      simp [act, hrows, happlied]

variable {κ ν : Type}

/-- After any run an operation is refused only where it is blocked, or where there are no rows. A
refused one leaves the session as a refresh does, and a custom action leaves it as it is. -/
theorem response_of_run (settings : Settings) (commands : List (Command κ))
    (hfits : ∀ command ∈ commands, command.Fits) :
    let s := (start settings).run commands
    (∀ operation : Operation,
        let result : Session × Response ν := s.act (.operate operation)
        (result.2 = .unhandled ↔ s.refresh.visible = [] ∨ s.refresh.Blocked operation) ∧
          (¬ (s.refresh.visible = [] ∨ s.refresh.Blocked operation) → result.2 = .handled) ∧
          (result.2 = .unhandled → result.1 = s.refresh)) ∧
      ∀ value : ν, s.act (.custom value) = (s, .custom value) := by
  intro s
  refine ⟨fun operation => ?_, fun value => rfl⟩
  rcases act_cases ν (fresh_run settings hfits) operation with ⟨hrefused, heq⟩ | ⟨hfree, heq⟩
  · simp [s, heq, hrefused]
  · simp [s, heq, hfree]

/-- At a leaf there is no child to select, and nothing is expanded in the attempt. -/
theorem response_of_run_leaf :
    let commands : List (Command Unit) := [.applyParse (.ok Node.sample), .moveCursor 20]
    let s := (start {}).run commands
    (∀ command ∈ commands, command.Fits) ∧
      s.refresh.selected = some ⟨[1, 0]⟩ ∧
      (s.act (.operate .selectChild : Action Unit)).2 = .unhandled ∧
      (s.act (.operate .selectChild : Action Unit)).1 = s.refresh := by
  intro commands s
  have hfits : ∀ command ∈ commands, command.Fits := by
    simp [commands, Command.Fits, Node.fits_sample]
  have hselected : s.refresh.selected = some ⟨[1, 0]⟩ := by decide +kernel
  have hany : (s.refresh.node? ⟨[1, 0]⟩).any (·.children.isEmpty) = true := by decide +kernel
  obtain ⟨node, hnode, hempty⟩ := (Option.any_eq_true _ _).1 hany
  have hleaf : s.refresh.NothingBelow :=
    .inr ⟨⟨[1, 0]⟩, node, hselected, hnode, List.isEmpty_iff.1 hempty⟩
  obtain ⟨hiff, _, hkept⟩ := (response_of_run {} commands hfits).1 .selectChild
  have hrefused := hiff.2 (.inr hleaf)
  exact ⟨hfits, hselected, hrefused, hkept hrefused⟩

end SyntaxOutline.Session
