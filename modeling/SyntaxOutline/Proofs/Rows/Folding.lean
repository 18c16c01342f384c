import SyntaxOutline.Proofs.Expansion.Members
import SyntaxOutline.Proofs.Listing.Subtree
import SyntaxOutline.Proofs.Rows.Visible

/-! # Rows while nodes are opened and closed

Opening nodes adds rows and takes none away. Opening and closing nodes of one subtree leaves the
rows outside of it as they are, since none of the nodes above such a row belongs to the subtree. The
rows of the subtree stand right after the row of its root. They are all its nodes if all of these
that have children are open, and the children of the root if the root is the only one. -/
namespace SyntaxOutline

namespace Expansion

variable {e f : Expansion} {path q : NodePath}

theorem opens_mono (h : e ⊆ f) (hopen : e.opens q = true) : f.opens q = true :=
  opens_iff.2 fun a ha => h a (opens_iff.1 hopen a ha)

/-- Both have the same members, but for paths that run through the given one. -/
def AgreesOutside (e f : Expansion) (path : NodePath) : Prop :=
  ∀ q, ¬ path.steps <+: q.steps → (q ∈ e ↔ q ∈ f)

theorem AgreesOutside.contains_eq (h : e.AgreesOutside f path) (hq : ¬ path.steps <+: q.steps) :
    e.contains q = f.contains q :=
  contains_eq_iff.2 (h q hq)

/-- What is above a path that is not below the given one agrees. -/
theorem AgreesOutside.opens_eq (h : e.AgreesOutside f path) (hq : path.isAncestorOf q = false) :
    e.opens q = f.opens q := by
  refine opens_congr fun a ha => h a fun hpre => ?_
  rw [NodePath.isAncestorOf_of_prefix_steps hpre ha] at hq
  cases hq

/-- Below an opened path only the path and what is below it count. -/
theorem opens_below_iff (hopen : e.opens path = true) (hq : path.isAncestorOf q = true) :
    e.opens q = true ↔ ∀ a ∈ q.ancestors, path.steps <+: a.steps → a ∈ e := by
  rw [opens_iff]
  constructor
  · intro hall a ha _
    exact hall a ha
  · intro hbelow a ha
    rcases NodePath.ancestors_total ha (NodePath.mem_ancestors_iff.2 hq) with habove | rfl | hunder
    · exact opens_iff.1 hopen a habove
    · exact hbelow a ha List.prefix_rfl
    · exact hbelow a ha (NodePath.prefix_of_mem_ancestors hunder)

theorem agreesOutside_toggle (e : Expansion) (path : NodePath) :
    e.AgreesOutside (e.toggle path).1 path := by
  intro q hq
  have hne : q ≠ path := by
    rintro rfl
    exact hq List.prefix_rfl
  simp [mem_toggle, hne]

theorem agreesOutside_expandSubtree (e : Expansion) (tree : Option Node)
    (hdepth : path.depth < levelLimit) :
    e.AgreesOutside (e.expandSubtree (.ofTree tree) path) path := by
  intro q hq
  simp [mem_expandSubtree, Listing.mem_subtree_iff hdepth, hq]

theorem agreesOutside_collapseSubtree (e : Expansion) (tree : Option Node)
    (hdepth : path.depth < levelLimit) :
    e.AgreesOutside (e.collapseSubtree (.ofTree tree) path) path := by
  intro q hq
  simp [mem_collapseSubtree, Listing.mem_subtree_iff hdepth, hq]

theorem not_mem_collapseSubtree {tree : Option Node} (hdepth : path.depth < levelLimit)
    (hq : q ∈ (Listing.ofTree tree).paths) (hpre : path.steps <+: q.steps) :
    q ∉ e.collapseSubtree (.ofTree tree) path := by
  rw [mem_collapseSubtree, Listing.mem_subtree_iff hdepth]
  rintro ⟨_, hkept⟩
  exact hkept ⟨hq, hpre⟩

/-- Toggling twice is toggling not at all. -/
theorem toggle_toggle (e : Expansion) (path : NodePath) : ((e.toggle path).1.toggle path).1 = e := by
  refine ext_mem fun q => ?_
  rw [mem_toggle, mem_toggle, mem_toggle]
  by_cases hq : q = path
  · simp [hq]
  · simp [hq]

end Expansion

/-- Whether a row is neither for a node nor for one below it. -/
def Row.isOutside (row : Row) (path : NodePath) : Bool :=
  path ≠ row.path && !path.isAncestorOf row.path

theorem Row.isOutside_iff {row : Row} {path : NodePath} :
    row.isOutside path = true ↔ ¬ path.steps <+: row.path.steps := by
  rw [NodePath.prefix_steps_iff, not_or, isOutside]
  simp

/-- The row that shows an entry. -/
def Entry.row (expanded : Expansion) (e : Entry) : Row :=
  { path := e.path, level := e.level, hasChildren := e.hasChildren
    isExpanded := e.hasChildren && expanded.contains e.path }

namespace Listing

variable {tree : Option Node} {e f : Expansion} {path : NodePath}

/-- The more is expanded, the more shows. -/
theorem visiblePaths_sublist (tree : Option Node) (h : e ⊆ f) :
    ((ofTree tree).visiblePaths e).Sublist ((ofTree tree).visiblePaths f) := by
  rw [visiblePaths_eq_filter, visiblePaths_eq_filter]
  exact List.monotone_filter_right _ fun q => Expansion.opens_mono h

/-- The first child of an expanded row shows. -/
theorem child_mem_visiblePaths (hpath : path ∈ (ofTree tree).visiblePaths e)
    (hchildren : (ofTree tree).hasChildren path = true) (hexpanded : path ∈ e) :
    path.child 0 ∈ (ofTree tree).visiblePaths e := by
  refine mem_visiblePaths_iff.2 ⟨child_mem_paths hchildren, ?_⟩
  have habove := (mem_visiblePaths_iff.1 hpath).2
  simpa [NodePath.ancestors_child, or_imp, forall_and] using ⟨habove, hexpanded⟩

theorem rows_eq_map (tree : Option Node) (expanded : Expansion) :
    (ofTree tree).rows expanded =
      ((ofTree tree).entries.filter fun x => expanded.opens x.path).map (Entry.row expanded) := by
  rw [rows, visible_eq_filter]
  rfl

/-- Rows outside of a subtree do not depend on what is expanded in it. -/
theorem rows_outside (tree : Option Node) (h : e.AgreesOutside f path) :
    ((ofTree tree).rows e).filter (·.isOutside path) =
      ((ofTree tree).rows f).filter (·.isOutside path) := by
  have hshown : ∀ x : Entry, ((x.row e).isOutside path && e.opens x.path) =
      ((x.row f).isOutside path && f.opens x.path) := by
    intro x
    cases hancestor : path.isAncestorOf x.path with
    | false => rw [h.opens_eq hancestor]; rfl
    | true => simp [Row.isOutside, Entry.row, hancestor]
  rw [rows_eq_map, rows_eq_map, List.filter_map, List.filter_map, List.filter_filter,
    List.filter_filter]
  simp only [Function.comp_def, hshown]
  refine List.map_congr_left fun x hx => ?_
  have hkept := (List.mem_filter.1 hx).2
  have houtside : (x.row f).isOutside path = true := (Bool.and_eq_true_iff.1 hkept).1
  have hsame : e.contains x.path = f.contains x.path := h.contains_eq (Row.isOutside_iff.1 houtside)
  rw [Entry.row, hsame]
  rfl

/-- Where a block of a list has all elements of a kind, there are none before it and after it. -/
theorem filter_ends_eq_nil {α : Type} {p : α → Bool} {all above block rest : List α}
    (hsplit : all = above ++ block ++ rest) (hblock : block.filter p = all.filter p) :
    (above ++ rest).filter p = [] := by
  have hlength : (all.filter p).length = ((above ++ block ++ rest).filter p).length := by
    rw [← hsplit]
  simp only [List.filter_append, List.length_append, hblock] at hlength
  apply List.length_eq_zero_iff.1
  rw [List.filter_append, List.length_append]
  omega

/-- The rows below a row stand right after it, and nowhere else. -/
theorem visiblePaths_eq_append (hpath : path ∈ (ofTree tree).visiblePaths e) :
    ∃ above rest, (ofTree tree).visiblePaths e =
        above ++ path :: ((ofTree tree).visiblePaths e).filter (path.isAncestorOf ·) ++ rest ∧
      ∀ q ∈ above ++ rest, path.isAncestorOf q = false := by
  rw [visiblePaths_eq_filter] at hpath ⊢
  obtain ⟨hlisted, hopen⟩ := List.mem_filter.1 hpath
  obtain ⟨above, rest, hpaths⟩ := paths_eq_append hlisted
  have hsplit : (ofTree tree).paths.filter e.opens = above.filter e.opens ++
      path :: ((ofTree tree).paths.filter e.opens).filter (path.isAncestorOf ·) ++
        rest.filter e.opens := by
    conv_lhs => rw [hpaths]
    simp only [List.filter_append, List.filter_cons, hopen, if_true, List.filter_filter,
      Bool.and_comm]
  have hends := filter_ends_eq_nil (p := (path.isAncestorOf ·)) hsplit (by
    simp [path.isAncestorOf_self])
  exact ⟨_, _, hsplit, by simpa using List.filter_eq_nil_iff.1 hends⟩

/-! What shows below a row. -/

theorem filter_below_visiblePaths (tree : Option Node) (e : Expansion) (path : NodePath) :
    ((ofTree tree).visiblePaths e).filter (path.isAncestorOf ·) =
      (ofTree tree).paths.filter fun q => path.isAncestorOf q && e.opens q := by
  rw [visiblePaths_eq_filter, List.filter_filter]

/-- With the whole subtree open all of it shows. -/
theorem below_expandSubtree (hpath : path ∈ (ofTree tree).visiblePaths e)
    (hdepth : path.depth < levelLimit) :
    ((ofTree tree).visiblePaths (e.expandSubtree (ofTree tree) path)).filter
        (path.isAncestorOf ·) =
      (ofTree tree).paths.filter (path.isAncestorOf ·) := by
  have hopen : (e.expandSubtree (ofTree tree) path).opens path = true := by
    rw [← (e.agreesOutside_expandSubtree tree hdepth).opens_eq path.isAncestorOf_self]
    exact Expansion.opens_iff.2 (mem_visiblePaths_iff.1 hpath).2
  rw [filter_below_visiblePaths]
  refine List.filter_congr fun q hq => ?_
  cases hbelow : path.isAncestorOf q with
  | false => rfl
  | true =>
    rw [Bool.true_and, Expansion.opens_below_iff hopen hbelow]
    intro a ha hpre
    have hlisted := mem_paths_of_mem_ancestors hq ha
    refine Expansion.mem_expandSubtree.2 (.inl ⟨?_, hasChildren_of_mem_ancestors hq ha⟩)
    exact (mem_subtree_iff hdepth).2 ⟨hlisted, hpre⟩

/-- Below a collapsed node nothing shows. -/
theorem below_collapsed (tree : Option Node) (hcollapsed : path ∉ e) :
    ((ofTree tree).visiblePaths e).filter (path.isAncestorOf ·) = [] := by
  refine List.filter_eq_nil_iff.2 fun q hq hbelow => ?_
  exact not_mem_visiblePaths (NodePath.mem_ancestors_iff.2 hbelow) hcollapsed hq

/-- Of an open node with nothing open below it the children show. -/
theorem below_opened {n m : Node} (hm : n.follow? path.steps = some m)
    (hopen : e.opens path = true) (hexpanded : path ∈ e)
    (hbelow : ∀ q ∈ (ofTree (some n)).paths, path.isAncestorOf q = true → q ∉ e) :
    ((ofTree (some n)).visiblePaths e).filter (path.isAncestorOf ·) =
      (List.range m.children.length).map path.child := by
  refine NodePath.eq_of_ascending ((ascending_visiblePaths (some n) e).filter _)
    (path.ascending_children _) fun q => ?_
  rw [List.mem_filter, mem_visiblePaths_iff, List.mem_map]
  constructor
  · rintro ⟨⟨hq, hall⟩, hancestor⟩
    obtain ⟨above, ordinal, rfl, rfl | hunder⟩ := NodePath.exists_child_of_isAncestorOf hancestor
    · obtain ⟨c, hc⟩ := mem_paths_ofTree_iff.1 hq
      rw [Node.follow?_child_eq hm] at hc
      exact ⟨ordinal, List.mem_range.2 (List.getElem?_eq_some_iff.1 hc).1, rfl⟩
    · have habove : above ∈ (above.child ordinal).ancestors := by simp [NodePath.ancestors_child]
      have hlisted := mem_paths_of_mem_ancestors hq habove
      exact absurd (hall above habove) (hbelow above hlisted hunder)
  · rintro ⟨ordinal, hordinal, rfl⟩
    have hc := List.getElem?_eq_getElem (List.mem_range.1 hordinal)
    refine ⟨⟨mem_paths_ofTree_iff.2 ⟨_, Node.follow?_child hm hc⟩, ?_⟩, ?_⟩
    · rw [← Expansion.opens_iff, Expansion.opens_child, hopen, Expansion.contains_iff.2 hexpanded]
      rfl
    · rw [← NodePath.mem_ancestors_iff, NodePath.ancestors_child]
      simp

/-- A node that is opened after its subtree was closed shows no more than its children. -/
theorem below_toggle_collapseSubtree {n m : Node} (hm : n.follow? path.steps = some m)
    (hpath : path ∈ (ofTree (some n)).visiblePaths e) (hdepth : path.depth < levelLimit) :
    let closed := e.collapseSubtree (ofTree (some n)) path
    ((ofTree (some n)).visiblePaths (closed.toggle path).1).filter (path.isAncestorOf ·) =
      (List.range m.children.length).map path.child := by
  intro closed
  obtain ⟨hlisted, habove⟩ := mem_visiblePaths_iff.1 hpath
  have hself : path ∉ closed := Expansion.not_mem_collapseSubtree hdepth hlisted List.prefix_rfl
  have hopen : (closed.toggle path).1.opens path = true := by
    rw [← (closed.agreesOutside_toggle path).opens_eq path.isAncestorOf_self,
      ← (e.agreesOutside_collapseSubtree (some n) hdepth).opens_eq path.isAncestorOf_self]
    exact Expansion.opens_iff.2 habove
  refine below_opened hm hopen (Expansion.mem_toggle.2 (.inr ⟨rfl, hself⟩)) fun q hq hbelow => ?_
  rw [Expansion.mem_toggle]
  rintro (⟨hmem, _⟩ | ⟨rfl, _⟩)
  · have hpre := NodePath.prefix_steps_iff.2 (.inr hbelow)
    exact Expansion.not_mem_collapseSubtree hdepth hq hpre hmem
  · rw [NodePath.isAncestorOf_self] at hbelow
    cases hbelow

end Listing

end SyntaxOutline
