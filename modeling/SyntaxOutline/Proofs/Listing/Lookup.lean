import Mathlib.Data.List.Nodup
import SyntaxOutline.Proofs.Listing.Preorder
import SyntaxOutline.Proofs.NodePath.Order

/-! # Looking paths up in listings

The last entry with a path is found, with its place. In the listing of a tree every path of the tree
has one entry, so each entry is found by its own path. A path also leads down the tree by its
ordinals, which passes over the steps that are too large for a word; no listed path has such a
step. -/
namespace SyntaxOutline

namespace Node

theorem mem_preorder_iff {n : Node} {path : NodePath} {e : Entry} :
    e ∈ n.preorder path ↔
      ∃ steps m, n.follow? steps = some m ∧ e = Entry.ofNode m ⟨path.steps ++ steps⟩ := by
  induction n using Node.induction generalizing path with
  | step n ih =>
    rw [preorder_eq, List.mem_cons]
    constructor
    · rintro (rfl | he)
      · exact ⟨[], n, rfl, by rw [List.append_nil]⟩
      · obtain ⟨⟨c, q⟩, hc, he⟩ := List.mem_flatMap.1 he
        obtain ⟨ordinal, hordinal, rfl⟩ := mem_childrenAt.1 hc
        obtain ⟨steps, m, hm, rfl⟩ := (ih c (List.mem_of_getElem? hordinal)).1 he
        refine ⟨ordinal :: steps, m, follow?_cons_eq_some.2 ⟨c, hordinal, hm⟩, ?_⟩
        rw [NodePath.child_steps_append]
    · rintro ⟨steps, m, hm, rfl⟩
      cases steps with
      | nil =>
        obtain rfl : n = m := by simpa [follow?] using hm
        exact .inl (by rw [List.append_nil])
      | cons ordinal steps =>
        obtain ⟨c, hc, hm⟩ := follow?_cons_eq_some.1 hm
        refine .inr (List.mem_flatMap.2 ⟨(c, path.child ordinal), ?_, ?_⟩)
        · exact mem_childrenAt.2 ⟨ordinal, hc, rfl⟩
        · refine (ih c (List.mem_of_getElem? hc)).2 ⟨steps, m, hm, ?_⟩
          rw [NodePath.child_steps_append]

mutual

theorem length_preorder : ∀ (n : Node) (path : NodePath), (n.preorder path).length = n.size
  | ⟨_, _, children, _, _⟩, path => by
    rw [preorder, size, List.length_cons, length_preorderFrom children path 0]

theorem length_preorderFrom :
    ∀ (children : List Node) (path : NodePath) (first : Nat),
      (preorderFrom children path first).length = sizes children
  | [], _, _ => rfl
  | child :: rest, path, first => by
    rw [preorderFrom, sizes, List.length_append, length_preorder child (path.child first),
      length_preorderFrom rest path (first + 1)]

end

theorem childrenAt_ascending (n : Node) (path : NodePath) :
    (n.childrenAt path).Pairwise fun a b =>
      ∃ i j, i < j ∧ a.2 = path.child i ∧ b.2 = path.child j := by
  have h : ((n.childrenAt path).map (·.2)).Pairwise fun p q =>
      ∃ i j, i < j ∧ p = path.child i ∧ q = path.child j := by
    rw [map_snd_childrenAt, List.pairwise_map]
    exact List.pairwise_lt_range.imp fun hlt => ⟨_, _, hlt, rfl, rfl⟩
  exact List.pairwise_map.1 h

/-- The entries of a tree stand in document order. -/
theorem preorder_ascending (n : Node) (path : NodePath) :
    (n.preorder path).Pairwise fun a b => a.path < b.path := by
  induction n using Node.induction generalizing path with
  | step n ih =>
    rw [preorder_eq, List.pairwise_cons, List.pairwise_flatMap]
    refine ⟨fun e he => ?_, fun c hc => ?_, (n.childrenAt_ascending path).imp ?_⟩
    · obtain ⟨⟨c, q⟩, hc, he⟩ := List.mem_flatMap.1 he
      obtain ⟨ordinal, _, rfl⟩ := mem_childrenAt.1 hc
      obtain ⟨steps, m, _, rfl⟩ := mem_preorder_iff.1 he
      simp only [Entry.ofNode, NodePath.child_steps_append]
      exact NodePath.lt_of_steps_cons path.steps ordinal steps
    · obtain ⟨ordinal, hordinal, _⟩ := mem_childrenAt.1 hc
      exact ih c.1 (List.mem_of_getElem? hordinal) c.2
    · rintro ⟨c, _⟩ ⟨d, _⟩ ⟨i, j, hij, rfl, rfl⟩ x hx y hy
      obtain ⟨xs, _, _, rfl⟩ := mem_preorder_iff.1 hx
      obtain ⟨ys, _, _, rfl⟩ := mem_preorder_iff.1 hy
      simp only [Entry.ofNode, NodePath.child_steps_append]
      exact NodePath.lt_of_ordinal_lt path.steps hij xs ys

end Node

namespace Listing

theorem find?_eq_some {l : Listing} {path : NodePath} {e : Entry} {i : Nat}
    (h : l.find? path = some (e, i)) : l.entries[i]? = some e ∧ e.path = path := by
  have hmem := List.mem_of_find?_eq_some h
  have hpath := List.find?_some h
  rw [List.mem_reverse, List.mk_mem_zipIdx_iff_getElem?] at hmem
  exact ⟨hmem, by simpa using hpath⟩

theorem contains_iff {l : Listing} {path : NodePath} :
    l.contains path = true ↔ path ∈ l.paths := by
  rw [contains, find?, List.find?_isSome, paths, List.mem_map]
  constructor
  · rintro ⟨⟨e, i⟩, he, hpath⟩
    rw [List.mem_reverse, List.mk_mem_zipIdx_iff_getElem?] at he
    exact ⟨e, List.mem_of_getElem? he, by simpa using hpath⟩
  · rintro ⟨e, he, rfl⟩
    obtain ⟨i, hi⟩ := List.mem_iff_getElem?.1 he
    refine ⟨(e, i), ?_, by simp⟩
    rw [List.mem_reverse, List.mk_mem_zipIdx_iff_getElem?]
    exact hi

/-- Where no path is repeated, an entry is found by its path. -/
theorem find?_of_getElem? {l : Listing} (hl : l.paths.Nodup) {e : Entry} {i : Nat}
    (he : l.entries[i]? = some e) : l.find? e.path = some (e, i) := by
  have hcontains : l.contains e.path = true :=
    contains_iff.2 (List.mem_map_of_mem (List.mem_of_getElem? he))
  obtain ⟨⟨found, place⟩, hfind⟩ := Option.isSome_iff_exists.1 hcontains
  obtain ⟨hfound, hpath⟩ := find?_eq_some hfind
  have hpaths : l.paths[place]? = l.paths[i]? := by
    rw [paths, List.getElem?_map, List.getElem?_map, hfound, he]
    simp [hpath]
  have hlt : place < l.paths.length := by
    simpa [paths] using (List.getElem?_eq_some_iff.1 hfound).1
  obtain rfl : place = i := (List.getElem?_inj hlt hl).1 hpaths
  rw [he] at hfound
  rw [hfind, Option.some.inj hfound]

theorem ofTree_ascending (n : Node) :
    (ofTree (some n)).entries.Pairwise fun a b => a.path < b.path := by
  rw [entries_ofTree]
  exact n.preorder_ascending NodePath.root

theorem nodup_paths_ofTree (tree : Option Node) : (ofTree tree).paths.Nodup := by
  cases tree with
  | none => exact .nil
  | some n =>
    rw [paths, List.Nodup, List.pairwise_map]
    exact (ofTree_ascending n).imp NodePath.ne_of_lt

theorem mem_entries_ofTree_iff {n : Node} {e : Entry} :
    e ∈ (ofTree (some n)).entries ↔
      ∃ m, n.follow? e.path.steps = some m ∧ e = Entry.ofNode m e.path := by
  rw [entries_ofTree, Node.mem_preorder_iff]
  constructor
  · rintro ⟨steps, m, hm, rfl⟩
    exact ⟨m, hm, rfl⟩
  · rintro ⟨m, hm, he⟩
    exact ⟨e.path.steps, m, hm, he⟩

theorem level_of_mem {tree : Option Node} {e : Entry} (he : e ∈ (ofTree tree).entries) :
    e.level = min e.path.depth levelLimit := by
  cases tree with
  | none => simp [ofTree] at he
  | some n =>
    obtain ⟨m, _, heq⟩ := mem_entries_ofTree_iff.1 he
    rw [heq]
    rfl

theorem mem_paths_ofTree_iff {n : Node} {path : NodePath} :
    path ∈ (ofTree (some n)).paths ↔ ∃ m, n.follow? path.steps = some m := by
  rw [paths, List.mem_map]
  constructor
  · rintro ⟨e, he, rfl⟩
    obtain ⟨m, hm, _⟩ := mem_entries_ofTree_iff.1 he
    exact ⟨m, hm⟩
  · rintro ⟨m, hm⟩
    exact ⟨Entry.ofNode m path, mem_entries_ofTree_iff.2 ⟨m, hm, rfl⟩, rfl⟩

/-- With a path the paths above it are listed. -/
theorem mem_paths_of_mem_ancestors {tree : Option Node} {path ancestor : NodePath}
    (hpath : path ∈ (ofTree tree).paths) (h : ancestor ∈ path.ancestors) :
    ancestor ∈ (ofTree tree).paths := by
  cases tree with
  | none => cases hpath
  | some n =>
    obtain ⟨m, hm⟩ := mem_paths_ofTree_iff.1 hpath
    apply mem_paths_ofTree_iff.2
    exact Node.exists_follow?_of_prefix_steps (NodePath.prefix_of_mem_ancestors h) hm

theorem get?_ofTree_eq_some_iff {n : Node} {path : NodePath} {e : Entry} :
    (ofTree (some n)).get? path = some e ↔
      ∃ m, n.follow? path.steps = some m ∧ e = Entry.ofNode m path := by
  constructor
  · intro h
    obtain ⟨⟨found, place⟩, hfind, rfl⟩ := Option.map_eq_some_iff.1 h
    obtain ⟨hfound, rfl⟩ := find?_eq_some hfind
    exact mem_entries_ofTree_iff.1 (List.mem_of_getElem? hfound)
  · rintro ⟨m, hm, rfl⟩
    have hmem : Entry.ofNode m path ∈ (ofTree (some n)).entries :=
      mem_entries_ofTree_iff.2 ⟨m, hm, rfl⟩
    obtain ⟨place, hplace⟩ := List.mem_iff_getElem?.1 hmem
    have hfind : (ofTree (some n)).find? path = some (Entry.ofNode m path, place) :=
      find?_of_getElem? (nodup_paths_ofTree (some n)) hplace
    rw [get?, hfind]
    rfl

theorem get?_of_mem {tree : Option Node} {e : Entry} (he : e ∈ (ofTree tree).entries) :
    (ofTree tree).get? e.path = some e := by
  cases tree with
  | none => simp [ofTree] at he
  | some n => exact get?_ofTree_eq_some_iff.2 (mem_entries_ofTree_iff.1 he)

theorem contains_eq_isSome (l : Listing) (path : NodePath) :
    l.contains path = (l.get? path).isSome := by
  rw [get?, Option.isSome_map, contains]

theorem at?_eq_get?_ordinals (n : Node) (path : NodePath) :
    n.at? path = ((ofTree (some n)).get? ⟨path.ordinals⟩).map (·.node) := by
  rw [Node.at?_eq_follow?]
  cases hfollow : n.follow? path.ordinals with
  | none =>
    cases hget : (ofTree (some n)).get? ⟨path.ordinals⟩ with
    | none => rfl
    | some e =>
      obtain ⟨m, hm, _⟩ := get?_ofTree_eq_some_iff.1 hget
      exact absurd (hm.symm.trans hfollow) (by simp)
  | some m =>
    have hget : (ofTree (some n)).get? ⟨path.ordinals⟩ =
        some (Entry.ofNode m ⟨path.ordinals⟩) := get?_ofTree_eq_some_iff.2 ⟨m, hfollow, rfl⟩
    rw [hget]
    rfl

theorem at?_eq_get?_of_words (n : Node) {path : NodePath}
    (h : ∀ step ∈ path.steps, step < Text.wordLimit) :
    n.at? path = ((ofTree (some n)).get? path).map (·.node) := by
  rw [at?_eq_get?_ordinals, NodePath.ordinals_eq_steps h]

/-- No listed path has a step that is too large for a word. -/
theorem step_lt_of_contains {n : Node} (hfits : n.Fits) {path : NodePath}
    (h : (ofTree (some n)).contains path = true) : ∀ step ∈ path.steps, step < Text.wordLimit := by
  obtain ⟨m, hm⟩ := mem_paths_ofTree_iff.1 (contains_iff.1 h)
  exact hfits.step_lt hm

/-- The listing and the way down disagree only on a path that the way down does not take whole. -/
theorem at?_eq_get?_iff {n : Node} (hfits : n.Fits) (path : NodePath) :
    n.at? path = ((ofTree (some n)).get? path).map (·.node) ↔
      (∀ step ∈ path.steps, step < Text.wordLimit) ∨ n.at? path = none := by
  constructor
  · intro hagree
    cases hget : (ofTree (some n)).get? path with
    | none =>
      rw [hget] at hagree
      exact .inr hagree
    | some e =>
      have hlisted : (ofTree (some n)).contains path = true := by
        rw [contains_eq_isSome, hget]
        rfl
      exact .inl (step_lt_of_contains hfits hlisted)
  · rintro (hwords | hnone)
    · exact at?_eq_get?_of_words n hwords
    · cases hget : (ofTree (some n)).get? path with
      | none => exact hnone
      | some e =>
        obtain ⟨m, hm, _⟩ := get?_ofTree_eq_some_iff.1 hget
        rw [hfits.at?_of_follow? hm] at hnone
        cases hnone

/-- The listing of a tree is its preorder listing. Its entries name the nodes of the tree by their
paths, each path once, and are found by them. -/
theorem ofTree_lists_preorder (n : Node) (hfits : n.Fits) :
    (ofTree (some n)).entries = n.preorder NodePath.root ∧
      (NodePath.root.text = "0" ∧ ∀ (path : NodePath) (ordinal : Nat),
        (path.child ordinal).text = path.text ++ "-" ++ toString ordinal) ∧
      ((ofTree (some n)).paths.Nodup ∧ ((ofTree (some n)).paths.map NodePath.text).Nodup) ∧
      (ofTree (some n)).size = n.size ∧
      (∀ e ∈ (ofTree (some n)).entries,
        n.at? e.path = some e.node ∧ e.parent = e.path.parent? ∧
          e.level = min e.path.depth 65535 ∧
          e.childPaths = (List.range e.node.children.length).map e.path.child) ∧
      (∀ i e, (ofTree (some n)).entries[i]? = some e →
        (ofTree (some n)).get? e.path = some e ∧ (ofTree (some n)).position? e.path = some i) ∧
      ∀ path : NodePath, (n.follow? path.steps).isSome →
        ∃! i : Nat, (ofTree (some n)).paths[i]? = some path := by
  have hnodup := nodup_paths_ofTree (some n)
  have htexts : ((ofTree (some n)).paths.map NodePath.text).Nodup :=
    hnodup.map fun _ _ => NodePath.text_injective
  refine ⟨entries_ofTree n, ⟨NodePath.text_root, NodePath.text_child⟩, ⟨hnodup, htexts⟩, ?_, ?_,
    ?_, ?_⟩
  · rw [size, entries_ofTree, Node.length_preorder]
  · intro e he
    obtain ⟨m, hm, heq⟩ := mem_entries_ofTree_iff.1 he
    have hnode : e.node = m := by rw [heq]; rfl
    refine ⟨by rw [hnode]; exact hfits.at?_of_follow? hm, ?_, ?_, ?_⟩
    · rw [heq]; rfl
    · rw [heq]; rfl
    · rw [heq]; rfl
  · intro i e he
    have hfind := find?_of_getElem? hnodup he
    exact ⟨by rw [get?, hfind]; rfl, by rw [position?, hfind]; rfl⟩
  · intro path hpath
    obtain ⟨m, hm⟩ := Option.isSome_iff_exists.1 hpath
    obtain ⟨i, hi⟩ := List.mem_iff_getElem?.1 (mem_paths_ofTree_iff.2 ⟨m, hm⟩)
    refine ⟨i, hi, fun j hj => ?_⟩
    have hlt : j < (ofTree (some n)).paths.length := (List.getElem?_eq_some_iff.1 hj).1
    exact (List.getElem?_inj hlt hnodup).1 (hj.trans hi.symm)

theorem ofTree_lists_sample :
    Node.sample.Fits ∧ (ofTree (some Node.sample)).size = 4 ∧
      (ofTree (some Node.sample)).paths.map NodePath.text = ["0", "0-0", "0-1", "0-1-0"] ∧
      ∃ i : Nat, (ofTree (some Node.sample)).paths[i]? = some ⟨[1, 0]⟩ := by
  obtain ⟨hentries, _, _, hsize, _, _, hunique⟩ :=
    ofTree_lists_preorder Node.sample Node.fits_sample
  have hpaths : (ofTree (some Node.sample)).paths = [⟨[]⟩, ⟨[0]⟩, ⟨[1]⟩, ⟨[1, 0]⟩] := by
    rw [paths, hentries]
    rfl
  refine ⟨Node.fits_sample, hsize, ?_, (hunique ⟨[1, 0]⟩ rfl).exists⟩
  rw [hpaths]
  decide +kernel

end Listing

end SyntaxOutline
