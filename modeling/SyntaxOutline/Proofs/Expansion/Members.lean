import SyntaxOutline.Expansion
import SyntaxOutline.Proofs.Listing.Lookup

/-! # Members of expansions

A set of expanded nodes is determined by its members. What the operations on whole trees add and
keep are the nodes with children, those of the whole tree or those above a level. A new tree
renews the set by dropping the rest, and renewing it a second time changes nothing. -/
namespace SyntaxOutline

namespace Node

/-- Whether the steps of a path lead to a node that has children. -/
def Branches (n : Node) (path : NodePath) : Prop :=
  ∃ m, n.follow? path.steps = some m ∧ m.children ≠ []

/-- All nodes above a node have children. -/
theorem branches_of_mem_ancestors {n m : Node} {p q : NodePath}
    (hm : n.follow? q.steps = some m) (hp : p ∈ q.ancestors) : n.Branches p := by
  obtain ⟨hpre, hlt⟩ := NodePath.isAncestorOf_iff.1 (NodePath.mem_ancestors_iff.1 hp)
  obtain ⟨rest, hrest⟩ := hpre
  rw [← hrest, follow?_append] at hm
  obtain ⟨k, hk, hbelow⟩ := Option.bind_eq_some_iff.1 hm
  refine ⟨k, hk, ?_⟩
  cases rest with
  | nil =>
    rw [List.append_nil] at hrest
    rw [NodePath.depth, NodePath.depth, hrest] at hlt
    exact absurd hlt (Nat.lt_irrefl _)
  | cons ordinal rest =>
    obtain ⟨c, hc, _⟩ := follow?_cons_eq_some.1 hbelow
    exact List.ne_nil_of_mem (List.mem_of_getElem? hc)

end Node

namespace Listing

theorem hasChildren_ofTree_iff {n : Node} {path : NodePath} :
    (ofTree (some n)).hasChildren path = true ↔ n.Branches path := by
  rw [hasChildren, Option.any_eq_true]
  constructor
  · rintro ⟨e, he, hchildren⟩
    obtain ⟨m, hm, rfl⟩ := get?_ofTree_eq_some_iff.1 he
    rw [Entry.hasChildren_ofNode] at hchildren
    exact ⟨m, hm, by simpa using hchildren⟩
  · rintro ⟨m, hm, hchildren⟩
    refine ⟨Entry.ofNode m path, get?_ofTree_eq_some_iff.2 ⟨m, hm, rfl⟩, ?_⟩
    rw [Entry.hasChildren_ofNode]
    simpa using hchildren

theorem hasChildren_iff_exists_branches {tree : Option Node} {path : NodePath} :
    (ofTree tree).hasChildren path = true ↔ ∃ n ∈ tree, n.Branches path := by
  cases tree with
  | none => simp [ofTree, hasChildren, get?, find?]
  | some n => simp [hasChildren_ofTree_iff]

theorem hasChildren_of_mem_ancestors {tree : Option Node} {p q : NodePath}
    (hq : q ∈ (ofTree tree).paths) (hp : p ∈ q.ancestors) :
    (ofTree tree).hasChildren p = true := by
  cases tree with
  | none => cases hq
  | some n =>
    obtain ⟨m, hm⟩ := mem_paths_ofTree_iff.1 hq
    exact hasChildren_ofTree_iff.2 (Node.branches_of_mem_ancestors hm hp)

theorem child_mem_paths {tree : Option Node} {p : NodePath}
    (h : (ofTree tree).hasChildren p = true) : p.child 0 ∈ (ofTree tree).paths := by
  obtain ⟨n, rfl, m, hm, hne⟩ := hasChildren_iff_exists_branches.1 h
  obtain ⟨c, rest, hcons⟩ := List.exists_cons_of_ne_nil hne
  refine mem_paths_ofTree_iff.2 ⟨c, Node.follow?_child hm ?_⟩
  rw [hcons]
  rfl

theorem hasChildren_path {tree : Option Node} {e : Entry} (he : e ∈ (ofTree tree).entries) :
    (ofTree tree).hasChildren e.path = e.hasChildren := by
  rw [hasChildren, get?_of_mem he, Option.any_some]

theorem hasChildren_iff_exists_entry {tree : Option Node} {path : NodePath} :
    (ofTree tree).hasChildren path = true ↔
      ∃ e ∈ (ofTree tree).entries, e.hasChildren = true ∧ e.path = path := by
  constructor
  · intro h
    obtain ⟨e, he, hchildren⟩ := (Option.any_eq_true _ _).1 h
    obtain ⟨⟨_, place⟩, hfind, rfl⟩ := Option.map_eq_some_iff.1 he
    obtain ⟨hplace, hpath⟩ := find?_eq_some hfind
    exact ⟨_, List.mem_of_getElem? hplace, hchildren, hpath⟩
  · rintro ⟨e, he, hchildren, rfl⟩
    rw [hasChildren_path he, hchildren]

end Listing

namespace Expansion

variable {e f : Expansion} {l : Listing} {tree : Option Node} {p q : NodePath} {depth : Nat}

instance : HasSubset Expansion := ⟨fun e f => ∀ p ∈ e, p ∈ f⟩

/-- Expansions with the same members are equal. -/
theorem ext_mem (h : ∀ p, p ∈ e ↔ p ∈ f) : e = f := by
  have hpaths : e.paths = f.paths := NodePath.eq_of_ascending e.ascending f.ascending h
  cases e
  cases f
  cases hpaths
  rfl

theorem contains_eq_iff : e.contains p = f.contains p ↔ (p ∈ e ↔ p ∈ f) := by
  rw [Bool.eq_iff_iff, contains_iff, contains_iff]

theorem not_mem_empty (p : NodePath) : p ∉ (∅ : Expansion) := List.not_mem_nil

theorem mem_ofList {paths : List NodePath} : p ∈ ofList paths ↔ p ∈ paths := by
  rw [ofList, mem_insertAll]
  exact or_iff_left (not_mem_empty p)

theorem isEmpty_iff : e.isEmpty = true ↔ ∀ p, p ∉ e := by
  rw [isEmpty, List.isEmpty_iff, List.eq_nil_iff_forall_not_mem]
  rfl

theorem mem_toggle : q ∈ (e.toggle p).1 ↔ (q ∈ e ∧ q ≠ p) ∨ (q = p ∧ p ∉ e) := by
  rw [toggle]
  by_cases hp : p ∈ e
  · rw [if_pos (contains_iff.2 hp)]
    simp [mem_erase, hp]
  · rw [if_neg (mt contains_iff.1 hp), mem_insert]
    by_cases hq : q = p
    · simp [hq, hp]
    · simp [hq]

theorem mem_expandTo : q ∈ e.expandTo p ↔ q ∈ p.ancestors ∨ q ∈ e := mem_insertAll

theorem subset_expandTo (e : Expansion) (p : NodePath) : e ⊆ e.expandTo p :=
  fun _ hq => mem_expandTo.2 (.inr hq)

theorem mem_retainListed : q ∈ e.retainListed l ↔ q ∈ e ∧ l.hasChildren q = true := mem_filter

theorem mem_expandSubtree :
    q ∈ e.expandSubtree l p ↔ (q ∈ l.subtree p ∧ l.hasChildren q = true) ∨ q ∈ e := by
  rw [expandSubtree, mem_insertAll, List.mem_filter]

theorem mem_collapseSubtree : q ∈ e.collapseSubtree l p ↔ q ∈ e ∧ q ∉ l.subtree p := mem_eraseAll

theorem mem_expandAll :
    q ∈ e.expandAll (.ofTree tree) ↔ (Listing.ofTree tree).hasChildren q = true := by
  rw [expandAll, mem_insertAll, or_iff_left (not_mem_collapseAll e q),
    Listing.hasChildren_iff_exists_entry]
  simp [and_assoc]

theorem mem_expandToDepth :
    q ∈ e.expandToDepth (.ofTree tree) depth ↔
      (min q.depth levelLimit < depth ∧ (Listing.ofTree tree).hasChildren q = true) ∨ q ∈ e := by
  rw [expandToDepth, mem_insertAll, Listing.hasChildren_iff_exists_entry]
  refine or_congr_left ?_
  constructor
  · intro h
    obtain ⟨x, hx, rfl⟩ := List.mem_map.1 h
    obtain ⟨hmem, hkept⟩ := List.mem_filter.1 hx
    simp only [Bool.and_eq_true, decide_eq_true_eq, Listing.level_of_mem hmem] at hkept
    exact ⟨hkept.1, x, hmem, hkept.2, rfl⟩
  · rintro ⟨hlevel, x, hmem, hchildren, rfl⟩
    refine List.mem_map.2 ⟨x, List.mem_filter.2 ⟨hmem, ?_⟩, rfl⟩
    simp only [Bool.and_eq_true, decide_eq_true_eq, Listing.level_of_mem hmem]
    exact ⟨hlevel, hchildren⟩

/-- What is expanded in a new tree: the paths expanded before that have children in it, and if there
are none, its nodes with children above a level. -/
def renewed (e : Expansion) (l : Listing) (depth : Nat) : Expansion :=
  if (e.retainListed l).isEmpty then (e.retainListed l).expandToDepth l depth
  else e.retainListed l

theorem retainListed_eq_self (h : ∀ p ∈ e, l.hasChildren p = true) : e.retainListed l = e :=
  ext_mem fun p => mem_retainListed.trans (and_iff_left_of_imp (h p))

theorem renewed_of_kept (h : ∃ p ∈ e, l.hasChildren p = true) (depth : Nat) :
    e.renewed l depth = e.retainListed l := by
  obtain ⟨p, hp, hlisted⟩ := h
  refine if_neg fun hempty => ?_
  exact isEmpty_iff.1 hempty p (mem_retainListed.2 ⟨hp, hlisted⟩)

theorem renewed_of_not_kept (h : ¬ ∃ p ∈ e, l.hasChildren p = true) (depth : Nat) :
    e.renewed l depth = (∅ : Expansion).expandToDepth l depth := by
  have hnone : e.retainListed l = ∅ := by
    refine ext_mem fun p => iff_of_false (fun hp => ?_) (not_mem_empty p)
    exact h ⟨p, mem_retainListed.1 hp⟩
  rw [renewed, hnone]
  rfl

theorem hasChildren_of_mem_renewed (h : p ∈ e.renewed (.ofTree tree) depth) :
    (Listing.ofTree tree).hasChildren p = true := by
  by_cases hkept : ∃ q ∈ e, (Listing.ofTree tree).hasChildren q = true
  · rw [renewed_of_kept hkept] at h
    exact (mem_retainListed.1 h).2
  · rw [renewed_of_not_kept hkept] at h
    rcases mem_expandToDepth.1 h with ⟨_, hlisted⟩ | hmem
    · exact hlisted
    · exact absurd hmem (not_mem_empty p)

/-- Nothing more is dropped the second time, and the initial nodes are the same again. -/
theorem renewed_renewed (e : Expansion) (tree : Option Node) (depth : Nat) :
    (e.renewed (.ofTree tree) depth).renewed (.ofTree tree) depth =
      e.renewed (.ofTree tree) depth := by
  by_cases hagain : ∃ p ∈ e.renewed (.ofTree tree) depth, (Listing.ofTree tree).hasChildren p = true
  · rw [renewed_of_kept hagain]
    exact retainListed_eq_self fun p hp => hasChildren_of_mem_renewed hp
  · have hkept : ¬ ∃ p ∈ e, (Listing.ofTree tree).hasChildren p = true := by
      intro hkept
      rw [renewed_of_kept hkept] at hagain
      obtain ⟨p, hp, hlisted⟩ := hkept
      exact hagain ⟨p, mem_retainListed.2 ⟨hp, hlisted⟩, hlisted⟩
    rw [renewed_of_not_kept hagain, renewed_of_not_kept hkept]

end Expansion

end SyntaxOutline
