import SyntaxOutline.Proofs.Listing.Lookup
import SyntaxOutline.Rows

/-! # Which entries show

The entries of a tree that show are those whose ancestors are all expanded. The walk over a listing
only looks at the parent of an entry; that is enough because the parent comes first, and because a
path has its parent's ancestors and the parent for ancestors. -/
namespace SyntaxOutline

namespace Expansion

/-- Whether all nodes above a path are expanded. -/
def opens (expanded : Expansion) (path : NodePath) : Bool := path.ancestors.all expanded.contains

theorem opens_iff {expanded : Expansion} {path : NodePath} :
    expanded.opens path = true ↔ ∀ ancestor ∈ path.ancestors, ancestor ∈ expanded := by
  simp only [opens, List.all_eq_true, contains_iff]

theorem opens_root (expanded : Expansion) : expanded.opens NodePath.root = true := rfl

theorem opens_child (expanded : Expansion) (path : NodePath) (ordinal : Nat) :
    expanded.opens (path.child ordinal) = (expanded.opens path && expanded.contains path) := by
  simp [opens, NodePath.ancestors_child]

/-- Only what is above a path counts. -/
theorem opens_congr {e f : Expansion} {path : NodePath}
    (h : ∀ ancestor ∈ path.ancestors, (ancestor ∈ e ↔ ancestor ∈ f)) :
    e.opens path = f.opens path := by
  rw [Bool.eq_iff_iff, opens_iff, opens_iff]
  exact forall₂_congr h

end Expansion

/-- Whether the children of an entry stay hidden. -/
def Entry.closes (expanded : Expansion) (e : Entry) : Bool :=
  !expanded.opens e.path || (e.hasChildren && !expanded.contains e.path)

/-- Every entry that is not for the root comes after the entry of its parent. -/
def ParentsFirst (entries : List Entry) : Prop :=
  ∀ before e after, entries = before ++ e :: after →
    e.parent = e.path.parent? ∧
      ∀ p, e.parent = some p → ∃ d ∈ before, d.path = p ∧ d.hasChildren = true

namespace Listing

theorem hasChildren_of_mem {n : Node} {e : Entry} (he : e ∈ (ofTree (some n)).entries) :
    e.hasChildren = !e.node.children.isEmpty := by
  obtain ⟨m, _, heq⟩ := mem_entries_ofTree_iff.1 he
  rw [heq, Entry.hasChildren_ofNode]
  rfl

/-- A listed child has a listed parent. -/
theorem exists_parent {n : Node} {e : Entry} {p : NodePath}
    (he : e ∈ (ofTree (some n)).entries) (hp : e.path.parent? = some p) :
    ∃ d ∈ (ofTree (some n)).entries, d.path = p ∧ d.hasChildren = true := by
  obtain ⟨m, hm, _⟩ := mem_entries_ofTree_iff.1 he
  obtain ⟨ordinal, hpath⟩ := NodePath.parent?_eq_some_iff.1 hp
  rw [hpath, NodePath.child, Node.follow?_append] at hm
  obtain ⟨k, hk, hchild⟩ := Option.bind_eq_some_iff.1 hm
  obtain ⟨c, hc, _⟩ := Node.follow?_cons_eq_some.1 hchild
  have hd : Entry.ofNode k p ∈ (ofTree (some n)).entries :=
    mem_entries_ofTree_iff.2 ⟨k, hk, rfl⟩
  have hne : k.children ≠ [] := List.ne_nil_of_mem (List.mem_of_getElem? hc)
  refine ⟨Entry.ofNode k p, hd, rfl, ?_⟩
  simpa [Entry.hasChildren_ofNode] using hne

theorem parentsFirst_ofTree (tree : Option Node) : ParentsFirst (ofTree tree).entries := by
  intro before e after hsplit
  cases tree with
  | none => simp [ofTree] at hsplit
  | some n =>
    have he : e ∈ (ofTree (some n)).entries := by simp [hsplit]
    have hparent : e.parent = e.path.parent? := by
      obtain ⟨m, _, heq⟩ := mem_entries_ofTree_iff.1 he
      rw [heq]
      rfl
    refine ⟨hparent, fun p hp => ?_⟩
    rw [hparent] at hp
    obtain ⟨d, hd, hdp, hchildren⟩ := exists_parent he hp
    refine ⟨d, ?_, hdp, hchildren⟩
    obtain ⟨ordinal, hpath⟩ := NodePath.parent?_eq_some_iff.1 hp
    have hlt : d.path < e.path := by
      rw [hdp, hpath]
      exact p.lt_child ordinal
    have hascending := ofTree_ascending n
    rw [hsplit] at hascending hd
    exact NodePath.mem_left_of_lt hascending hd hlt

end Listing

/-- An entry's parent is kept as closed just when something above the entry is collapsed. -/
theorem parent_mem_closed_iff {expanded : Expansion} {done : List Entry} {closed : List NodePath}
    {e : Entry} (hparent : e.parent = e.path.parent?)
    (hdone : ∀ p, e.parent = some p → ∃ d ∈ done, d.path = p ∧ d.hasChildren = true)
    (hclosed : ∀ p, p ∈ closed ↔ ∃ d ∈ done, d.path = p ∧ d.closes expanded = true) :
    e.parent.any (· ∈ closed) = !expanded.opens e.path := by
  cases hp : e.parent with
  | none =>
    have hroot : e.path = NodePath.root := NodePath.parent?_eq_none_iff.1 (by rw [← hparent, hp])
    rw [hroot, expanded.opens_root]
    rfl
  | some p =>
    obtain ⟨ordinal, hpath⟩ := NodePath.parent?_eq_some_iff.1 (hparent.symm.trans hp)
    obtain ⟨d, hd, hdp, hchildren⟩ := hdone p hp
    rw [hpath, expanded.opens_child, Option.any_some, Bool.eq_iff_iff, decide_eq_true_iff, hclosed]
    constructor
    · rintro ⟨d', _, rfl, hcloses⟩
      simp only [Entry.closes, Bool.or_eq_true, Bool.and_eq_true] at hcloses
      rw [Bool.not_and, Bool.or_eq_true]
      exact hcloses.imp_right And.right
    · intro hopen
      refine ⟨d, hd, hdp, ?_⟩
      rw [Entry.closes, hdp, hchildren, Bool.true_and, ← Bool.not_and]
      exact hopen

/-- The walk shows what is opened. It keeps the entries done that close, and no other paths. -/
theorem visibleFrom_eq_filter {expanded : Expansion} {done rest : List Entry}
    {closed : List NodePath} (hfirst : ParentsFirst (done ++ rest))
    (hclosed : ∀ p, p ∈ closed ↔ ∃ d ∈ done, d.path = p ∧ d.closes expanded = true) :
    visibleFrom expanded closed rest = rest.filter fun e => expanded.opens e.path := by
  induction rest generalizing done closed with
  | nil => rfl
  | cons e rest ih =>
    obtain ⟨hparent, hdone⟩ := hfirst done e rest rfl
    have hmem := parent_mem_closed_iff hparent hdone hclosed
    have hrest : ParentsFirst ((done ++ [e]) ++ rest) := by simpa using hfirst
    have hsnoc : ∀ p, (∃ d ∈ done ++ [e], d.path = p ∧ d.closes expanded = true) ↔
        p ∈ closed ∨ (e.path = p ∧ e.closes expanded = true) := by
      intro p
      rw [hclosed]
      simp [or_and_right, exists_or]
    have hclosing : e.closes expanded = true → ∀ p, p ∈ e.path :: closed ↔
        ∃ d ∈ done ++ [e], d.path = p ∧ d.closes expanded = true := by
      intro hcloses p
      rw [hsnoc, hcloses, List.mem_cons, or_comm, eq_comm]
      simp
    have hopening : e.closes expanded = false → ∀ p, p ∈ closed ↔
        ∃ d ∈ done ++ [e], d.path = p ∧ d.closes expanded = true := by
      intro hcloses p
      rw [hsnoc, hcloses]
      simp
    rw [visibleFrom, hmem, List.filter_cons]
    cases hopens : expanded.opens e.path with
    | false =>
      have hcloses : e.closes expanded = true := by simp [Entry.closes, hopens]
      simp only [Bool.not_false, if_true, Bool.false_eq_true, if_false]
      exact ih hrest (hclosing hcloses)
    | true =>
      have hcloses : e.closes expanded = (e.hasChildren && !expanded.contains e.path) := by
        simp [Entry.closes, hopens]
      simp only [Bool.not_true, Bool.false_eq_true, if_false, if_true]
      split
      next hcollapsed => rw [ih hrest (hclosing (hcloses.trans hcollapsed))]
      next hopen => rw [ih hrest (hopening (hcloses.trans (by simpa using hopen)))]

namespace Listing

theorem visible_eq_filter (tree : Option Node) (expanded : Expansion) :
    (ofTree tree).visible expanded =
      (ofTree tree).entries.filter fun e => expanded.opens e.path := by
  have hfirst : ParentsFirst ([] ++ (ofTree tree).entries) := parentsFirst_ofTree tree
  exact visibleFrom_eq_filter hfirst (by simp)

theorem visiblePaths_eq_filter (tree : Option Node) (expanded : Expansion) :
    (ofTree tree).visiblePaths expanded = (ofTree tree).paths.filter expanded.opens := by
  rw [visiblePaths, visible_eq_filter, paths, List.filter_map]
  rfl

theorem mem_visiblePaths_iff {tree : Option Node} {expanded : Expansion} {path : NodePath} :
    path ∈ (ofTree tree).visiblePaths expanded ↔
      path ∈ (ofTree tree).paths ∧ ∀ ancestor ∈ path.ancestors, ancestor ∈ expanded := by
  rw [visiblePaths_eq_filter, List.mem_filter, Expansion.opens_iff]

/-- With a row the rows above it show. -/
theorem mem_visiblePaths_of_mem_ancestors {tree : Option Node} {expanded : Expansion}
    {path ancestor : NodePath} (hshows : path ∈ (ofTree tree).visiblePaths expanded)
    (h : ancestor ∈ path.ancestors) : ancestor ∈ (ofTree tree).visiblePaths expanded := by
  obtain ⟨hpath, hopen⟩ := mem_visiblePaths_iff.1 hshows
  refine mem_visiblePaths_iff.2 ⟨mem_paths_of_mem_ancestors hpath h, fun a ha => ?_⟩
  exact hopen a (NodePath.mem_ancestors_trans ha h)

/-- What is below a collapsed node does not show. -/
theorem not_mem_visiblePaths {tree : Option Node} {expanded : Expansion} {path ancestor : NodePath}
    (h : ancestor ∈ path.ancestors) (hcollapsed : ancestor ∉ expanded) :
    path ∉ (ofTree tree).visiblePaths expanded :=
  fun hshows => hcollapsed ((mem_visiblePaths_iff.1 hshows).2 ancestor h)

/-- The root always shows. -/
theorem root_mem_visiblePaths (n : Node) (expanded : Expansion) :
    NodePath.root ∈ (ofTree (some n)).visiblePaths expanded :=
  mem_visiblePaths_iff.2
    ⟨mem_paths_ofTree_iff.2 ⟨n, rfl⟩, Expansion.opens_iff.1 expanded.opens_root⟩

theorem nodup_visiblePaths (tree : Option Node) (expanded : Expansion) :
    ((ofTree tree).visiblePaths expanded).Nodup := by
  rw [visiblePaths_eq_filter]
  exact (nodup_paths_ofTree tree).filter _

theorem ascending_visiblePaths (tree : Option Node) (expanded : Expansion) :
    ((ofTree tree).visiblePaths expanded).Pairwise (· < ·) := by
  rw [visiblePaths_eq_filter]
  cases tree with
  | none => exact .nil
  | some n => exact (List.pairwise_map.2 (ofTree_ascending n)).filter _

/-- What shows of a tree are the nodes all of whose ancestors are expanded, in document order. A row
marks a node as expanded if it has children that show. -/
theorem rows_show_opened (tree : Option Node) (expanded : Expansion) :
    let l := ofTree tree
    let shown := l.entries.filter fun e => e.path.ancestors.all expanded.contains
    (l.visiblePaths expanded = shown.map (·.path) ∧
        (l.visiblePaths expanded).Sublist l.paths ∧
        (l.visiblePaths expanded).Pairwise (· < ·) ∧
        ∀ e ∈ l.entries, e.path ∈ l.visiblePaths expanded ↔
          ∀ ancestor ∈ e.path.ancestors, ancestor ∈ expanded) ∧
      (l.rows expanded).map (·.path) = l.visiblePaths expanded ∧
      l.rows expanded = shown.map fun e =>
        { path := e.path, level := e.level, hasChildren := !e.node.children.isEmpty
          isExpanded := !e.node.children.isEmpty && expanded.contains e.path } := by
  intro l shown
  have hshown : l.visible expanded = shown := visible_eq_filter tree expanded
  refine ⟨⟨?_, ?_, ascending_visiblePaths tree expanded, ?_⟩, ?_, ?_⟩
  · rw [visiblePaths, hshown]
  · rw [visiblePaths_eq_filter]
    exact List.filter_sublist
  · intro e he
    have hlisted : e.path ∈ l.paths := List.mem_map_of_mem he
    simp only [l, mem_visiblePaths_iff, hlisted, true_and]
  · simp [rows, visiblePaths]
  · rw [rows, hshown]
    refine List.map_congr_left fun e he => ?_
    have hchildren : e.hasChildren = !e.node.children.isEmpty := by
      cases tree with
      | none => simp [shown, l, ofTree] at he
      | some n => exact hasChildren_of_mem (List.mem_filter.1 he).1
    rw [hchildren]

/-- An expanded node under a collapsed one does not show, nor does a path without a node. -/
example : (ofTree (some Node.sample)).visiblePaths (.ofList [⟨[1]⟩, ⟨[7]⟩]) = [NodePath.root] := by
  decide +kernel

end Listing

end SyntaxOutline
