import Mathlib.Data.List.Basic
import SyntaxOutline.Proofs.Rows.Folding
import SyntaxOutline.Proofs.Rows.Steps

/-! # Paths that nothing shows

Of a set of expanded nodes only the nodes with children count: every node above a listed one has
children, a row of a node without children is never marked as expanded, and no step goes down from
it. So leaves and paths of nodes that are gone may be in the set or not. Two sets that agree on the
nodes with children show the same, and two that do not are told apart by a step to a first child. -/
namespace SyntaxOutline

/-- Both have the same members among the nodes of the tree that have children. -/
def Expansion.AgreesOn (e f : Expansion) (tree : Option Node) : Prop :=
  ∀ n ∈ tree, ∀ path, n.Branches path → (path ∈ e ↔ path ∈ f)

/-- Two sets of expanded nodes have the same rows and the same steps to first children. -/
structure Listing.ShowsAlike (l : Listing) (e f : Expansion) : Prop where
  visiblePaths_eq : l.visiblePaths e = l.visiblePaths f
  rows_eq : l.rows e = l.rows f
  firstChildPath?_eq : ∀ path, firstChildPath? l e path = firstChildPath? l f path

namespace Listing

variable {tree : Option Node} {e f : Expansion} {path : NodePath} {x : Entry}

theorem agreesOn_iff :
    e.AgreesOn f tree ↔
      ∀ path, (ofTree tree).hasChildren path = true → (path ∈ e ↔ path ∈ f) := by
  constructor
  · intro h path hchildren
    obtain ⟨n, hn, hbranches⟩ := hasChildren_iff_exists_branches.1 hchildren
    exact h n hn path hbranches
  · intro h n hn path hbranches
    exact h path (hasChildren_iff_exists_branches.2 ⟨n, hn, hbranches⟩)

theorem opens_eq_of_agreesOn (h : e.AgreesOn f tree) (hpath : path ∈ (ofTree tree).paths) :
    e.opens path = f.opens path :=
  Expansion.opens_congr fun a ha => agreesOn_iff.1 h a (hasChildren_of_mem_ancestors hpath ha)

theorem row_eq_of_agreesOn (h : e.AgreesOn f tree) (hx : x ∈ (ofTree tree).entries) :
    x.row e = x.row f := by
  cases hchildren : x.hasChildren with
  | false => simp [Entry.row, hchildren]
  | true =>
    have hlisted : (ofTree tree).hasChildren x.path = true := by rw [hasChildren_path hx, hchildren]
    have hsame := Expansion.contains_eq_iff.2 (agreesOn_iff.1 h x.path hlisted)
    rw [Entry.row, hsame]
    rfl

theorem firstChildPath?_eq_iff :
    firstChildPath? (ofTree tree) e path = firstChildPath? (ofTree tree) f path ↔
      ((ofTree tree).hasChildren path = true → (path ∈ e ↔ path ∈ f)) := by
  rw [firstChildPath?_ofTree, firstChildPath?_ofTree, ← Expansion.contains_eq_iff]
  cases (ofTree tree).hasChildren path <;> cases e.contains path <;> cases f.contains path <;> simp

/-- What shows depends on the nodes with children, and on every one of them. -/
theorem showsAlike_iff : (ofTree tree).ShowsAlike e f ↔ e.AgreesOn f tree := by
  constructor
  · intro h
    exact agreesOn_iff.2 fun path => firstChildPath?_eq_iff.1 (h.firstChildPath?_eq path)
  · intro h
    refine ⟨?_, ?_, fun path => firstChildPath?_eq_iff.2 (agreesOn_iff.1 h path)⟩
    · rw [visiblePaths_eq_filter, visiblePaths_eq_filter]
      exact List.filter_congr fun q hq => opens_eq_of_agreesOn h hq
    · have hopens : ∀ x ∈ (ofTree tree).entries, e.opens x.path = f.opens x.path :=
        fun x hx => opens_eq_of_agreesOn h (List.mem_map_of_mem hx)
      rw [rows_eq_map, rows_eq_map, List.filter_congr hopens]
      exact List.map_congr_left fun x hx => row_eq_of_agreesOn h (List.mem_filter.1 hx).1

end Listing

namespace Expansion

variable {tree : Option Node} {e : Expansion} {l : Listing} {path : NodePath}

theorem agreesOn_retainListed (e : Expansion) (tree : Option Node) :
    (e.retainListed (.ofTree tree)).AgreesOn e tree := by
  intro n hn path hbranches
  rw [mem_retainListed, Listing.hasChildren_iff_exists_branches]
  exact and_iff_left ⟨n, hn, hbranches⟩

/-- The count is that of the members that are dropped. -/
theorem staleCount_eq_length (e : Expansion) (l : Listing) :
    e.staleCount l = (e.paths.filter fun path => !(e.retainListed l).contains path).length := by
  have hdropped : e.paths.filter (fun path => !(e.retainListed l).contains path) =
      e.paths.filter fun path => !l.hasChildren path := by
    refine List.filter_congr fun path hpath => ?_
    rw [Bool.eq_iff_iff, Bool.not_eq_true', Bool.not_eq_true', ← Bool.not_eq_true,
      ← Bool.not_eq_true, contains_iff, mem_retainListed]
    exact not_congr (and_iff_right hpath)
  have hkept : (e.retainListed l).size = (e.paths.filter l.hasChildren).length := rfl
  rw [hdropped, staleCount, size, e.paths.length_eq_length_filter_add l.hasChildren, hkept,
    Nat.add_sub_cancel_left]

theorem retainListed_retainListed (e : Expansion) (l : Listing) :
    (e.retainListed l).retainListed l = e.retainListed l :=
  retainListed_eq_self fun _ hp => (mem_retainListed.1 hp).2

end Expansion

namespace Listing

/-- Two sets of expanded nodes have the same rows and steps just when they agree on the nodes that
have children. To drop the other paths changes none of these; it leaves the nodes with children and
tells how many paths it drops. The second time it drops none. -/
theorem showsAlike_of_stale (tree : Option Node) (e : Expansion) :
    let l := ofTree tree
    let kept := e.retainListed l
    (∀ f, l.ShowsAlike e f ↔ e.AgreesOn f tree) ∧
      l.ShowsAlike kept e ∧
      (∀ path, path ∈ kept ↔ path ∈ e ∧ ∃ n ∈ tree, n.Branches path) ∧
      e.staleCount l = (e.paths.filter fun path => !kept.contains path).length ∧
      kept.staleCount l = 0 ∧ kept.retainListed l = kept := by
  intro l kept
  have hagain : kept.retainListed l = kept := e.retainListed_retainListed l
  refine ⟨fun f => showsAlike_iff, showsAlike_iff.2 (e.agreesOn_retainListed tree), fun path => ?_,
    e.staleCount_eq_length l, ?_, hagain⟩
  · rw [Expansion.mem_retainListed, hasChildren_iff_exists_branches]
  · rw [Expansion.staleCount, hagain, Nat.sub_self]

/-- A leaf and a path without a node make no row look different. -/
example : (ofTree (some Node.sample)).rows (.ofList [⟨[]⟩, ⟨[0]⟩, ⟨[7]⟩]) =
    (ofTree (some Node.sample)).rows (.ofList [⟨[]⟩]) := by
  decide +kernel

end Listing

end SyntaxOutline
