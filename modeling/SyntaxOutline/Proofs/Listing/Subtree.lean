import SyntaxOutline.Proofs.Listing.Lookup

/-! # Subtrees of a listing

The entries of a node and of all nodes below it stand together in the listing of a tree. The entry
after them is not deeper than the node, so the scan by levels takes just these entries, as long as
the level of the node is below the limit. They are the entries whose paths run through the path of
the node. -/
namespace SyntaxOutline

namespace Node

variable {n m : Node} {path : NodePath} {e : Entry}

/-- What is listed below a node. -/
def preorderBelow (n : Node) (path : NodePath) : List Entry :=
  (n.childrenAt path).flatMap fun c => c.1.preorder c.2

theorem preorder_eq_cons (n : Node) (path : NodePath) :
    n.preorder path = Entry.ofNode n path :: n.preorderBelow path :=
  n.preorder_eq path

theorem isAncestorOf_of_mem_preorderBelow (he : e ∈ n.preorderBelow path) :
    path.isAncestorOf e.path = true := by
  obtain ⟨⟨c, q⟩, hc, he⟩ := List.mem_flatMap.1 he
  obtain ⟨ordinal, _, rfl⟩ := mem_childrenAt.1 hc
  obtain ⟨steps, m, _, rfl⟩ := mem_preorder_iff.1 he
  rw [NodePath.isAncestorOf_iff]
  simp only [Entry.ofNode, NodePath.child_steps_append, NodePath.depth, List.length_append,
    List.length_cons]
  exact ⟨List.prefix_append _ _, by omega⟩

theorem depth_of_head?_siblings {siblings : List (Node × NodePath)}
    (h : ∀ c ∈ siblings, c ∈ n.childrenAt path)
    (he : (siblings.flatMap fun c => c.1.preorder c.2).head? = some e) :
    e.path.depth = path.depth + 1 := by
  cases siblings with
  | nil => cases he
  | cons first rest =>
    obtain ⟨ordinal, _, hpath⟩ := mem_childrenAt.1 (h first List.mem_cons_self)
    rw [List.flatMap_cons, preorder_eq_cons, List.cons_append, List.head?_cons,
      Option.some.injEq] at he
    rw [← he, Entry.ofNode, hpath, NodePath.depth_child]

/-- The entries of a subtree stand together, and the entry after them is not deeper than the root
of the subtree. -/
theorem preorder_eq_append {steps : List Nat} (h : n.follow? steps = some m) (path : NodePath) :
    ∃ before after, n.preorder path = before ++ m.preorder ⟨path.steps ++ steps⟩ ++ after ∧
      ∀ e ∈ after.head?, e.path.depth ≤ path.depth + steps.length := by
  induction steps generalizing n path with
  | nil =>
    obtain rfl : n = m := by simpa [follow?] using h
    exact ⟨[], [], by simp, by simp⟩
  | cons ordinal rest ih =>
    obtain ⟨c, hc, hrest⟩ := follow?_cons_eq_some.1 h
    obtain ⟨before, after, hsplit, hhead⟩ := ih hrest (path.child ordinal)
    obtain ⟨earlier, later, hchildren⟩ :=
      List.append_of_mem (mem_childrenAt.2 ⟨ordinal, hc, rfl⟩ : _ ∈ n.childrenAt path)
    refine ⟨Entry.ofNode n path :: (earlier.flatMap fun c => c.1.preorder c.2) ++ before,
      after ++ later.flatMap fun c => c.1.preorder c.2, ?_, ?_⟩
    · rw [preorder_eq, hchildren, List.flatMap_append, List.flatMap_cons, hsplit,
        NodePath.child_steps_append]
      simp
    · intro e he
      rw [List.length_cons]
      rw [Option.mem_def, List.head?_append, Option.or_eq_some_iff] at he
      rcases he with hafter | ⟨_, hnext⟩
      · have hdepth := hhead e hafter
        rw [NodePath.depth_child] at hdepth
        omega
      · have hlater : ∀ c ∈ later, c ∈ n.childrenAt path := by simp +contextual [hchildren]
        rw [depth_of_head?_siblings hlater hnext]
        omega

end Node

namespace Listing

variable {n m : Node} {path : NodePath}

/-- Below the limit levels compare like depths. -/
theorem level_lt_iff {tree : Option Node} {d e : Entry} (hd : d ∈ (ofTree tree).entries)
    (he : e ∈ (ofTree tree).entries) (hdepth : d.path.depth < levelLimit) :
    d.level < e.level ↔ d.path.depth < e.path.depth := by
  rw [level_of_mem hd, level_of_mem he]
  omega

theorem mem_preorder_of_prefix (h : n.follow? path.steps = some m) {e : Entry}
    (he : e ∈ (ofTree (some n)).entries) (hpre : path.steps <+: e.path.steps) :
    e ∈ m.preorder path := by
  obtain ⟨k, hk, heq⟩ := mem_entries_ofTree_iff.1 he
  obtain ⟨steps, hsteps⟩ := hpre
  rw [← hsteps, Node.follow?_append, h] at hk
  exact Node.mem_preorder_iff.2 ⟨steps, k, hk, by rw [hsteps]; exact heq⟩

theorem entries_eq_append (h : n.follow? path.steps = some m) :
    ∃ before after, (ofTree (some n)).entries = before ++ m.preorder path ++ after ∧
      ∀ e ∈ after.head?, e.path.depth ≤ path.depth := by
  obtain ⟨before, after, hsplit, hhead⟩ := Node.preorder_eq_append h NodePath.root
  refine ⟨before, after, by rw [entries_ofTree, hsplit]; rfl, fun e he => ?_⟩
  simpa [NodePath.root, NodePath.depth] using hhead e he

theorem subtree_of_contains_eq_false {l : Listing} (h : l.contains path = false) :
    l.subtree path = [] := by
  rw [contains, Option.isSome_eq_false_iff, Option.isNone_iff_eq_none] at h
  rw [subtree, h]

/-- The scan by levels takes the entries of the subtree. -/
theorem subtree_of_follow? (h : n.follow? path.steps = some m) (hdepth : path.depth < levelLimit) :
    (ofTree (some n)).subtree path = (m.preorder path).map (·.path) := by
  obtain ⟨before, after, hsplit, hhead⟩ := entries_eq_append h
  have hentries : (ofTree (some n)).entries =
      before ++ Entry.ofNode m path :: (m.preorderBelow path ++ after) := by
    simp [hsplit, Node.preorder_eq_cons]
  have hroot : Entry.ofNode m path ∈ (ofTree (some n)).entries := by simp [hentries]
  have hplace : (ofTree (some n)).entries[before.length]? = some (Entry.ofNode m path) := by
    simp [hentries]
  have hfind : (ofTree (some n)).find? path = some (Entry.ofNode m path, before.length) :=
    find?_of_getElem? (nodup_paths_ofTree (some n)) hplace
  have hbelow : ∀ e ∈ m.preorderBelow path,
      decide ((Entry.ofNode m path).level < e.level) = true := by
    intro e he
    have hmem : e ∈ (ofTree (some n)).entries := by simp [hentries, he]
    have hancestor := NodePath.isAncestorOf_iff.1 (Node.isAncestorOf_of_mem_preorderBelow he)
    exact decide_eq_true ((level_lt_iff hroot hmem hdepth).2 hancestor.2)
  have hafter : after.takeWhile (fun e => decide ((Entry.ofNode m path).level < e.level)) = [] := by
    cases after with
    | nil => rfl
    | cons first after =>
      have hmem : first ∈ (ofTree (some n)).entries := by simp [hentries]
      have hlevel : ¬ (Entry.ofNode m path).level < first.level := by
        rw [level_lt_iff hroot hmem hdepth]
        exact Nat.not_lt.2 (hhead first rfl)
      rw [List.takeWhile_cons_of_neg (by simpa using hlevel)]
  have hdrop : (ofTree (some n)).entries.drop (before.length + 1) =
      m.preorderBelow path ++ after := by
    simp [hentries]
  rw [subtree, hfind]
  show path :: List.map _ (List.takeWhile _ (List.drop _ _)) = _
  rw [hdrop, List.takeWhile_append_of_pos hbelow, hafter, List.append_nil,
    Node.preorder_eq_cons]
  rfl

/-- The paths that run through a path are those of the subtree. -/
theorem filter_paths_of_follow? (h : n.follow? path.steps = some m) :
    ((ofTree (some n)).paths.filter fun q => path = q ∨ path.isAncestorOf q = true) =
      (m.preorder path).map (·.path) := by
  obtain ⟨before, after, hentries, _⟩ := entries_eq_append h
  have hascending := ofTree_ascending n
  rw [hentries, List.pairwise_append, List.pairwise_append] at hascending
  obtain ⟨⟨_, _, hleft⟩, _, hright⟩ := hascending
  have hblock : ∀ e ∈ m.preorder path, path.steps <+: e.path.steps := by
    intro e he
    obtain ⟨steps, _, _, rfl⟩ := Node.mem_preorder_iff.1 he
    exact List.prefix_append path.steps steps
  have hbefore : ∀ e ∈ before, ¬ path.steps <+: e.path.steps := by
    intro e he hpre
    have hmem := mem_preorder_of_prefix h (by simp [hentries, he]) hpre
    exact NodePath.lt_irrefl e.path (hleft e he e hmem)
  have hafter : ∀ e ∈ after, ¬ path.steps <+: e.path.steps := by
    intro e he hpre
    have hmem := mem_preorder_of_prefix h (by simp [hentries, he]) hpre
    exact NodePath.lt_irrefl e.path (hright e (List.mem_append_right before hmem) e he)
  rw [paths, List.filter_map, hentries, List.filter_append, List.filter_append]
  simp only [Function.comp_def, ← NodePath.prefix_steps_iff]
  rw [List.filter_eq_nil_iff.2 (by simpa using hbefore),
    List.filter_eq_self.2 (by simpa using hblock),
    List.filter_eq_nil_iff.2 (by simpa using hafter), List.nil_append, List.append_nil]

theorem mem_subtree_iff {tree : Option Node} {q : NodePath} (hdepth : path.depth < levelLimit) :
    q ∈ (ofTree tree).subtree path ↔ q ∈ (ofTree tree).paths ∧ path.steps <+: q.steps := by
  by_cases hpath : path ∈ (ofTree tree).paths
  · cases tree with
    | none => cases hpath
    | some n =>
      obtain ⟨m, hm⟩ := mem_paths_ofTree_iff.1 hpath
      rw [subtree_of_follow? hm hdepth, ← filter_paths_of_follow? hm, List.mem_filter,
        NodePath.prefix_steps_iff, decide_eq_true_iff]
  · have hcontains : (ofTree tree).contains path = false := by
      rwa [← Bool.not_eq_true, contains_iff]
    rw [subtree_of_contains_eq_false hcontains]
    refine iff_of_false List.not_mem_nil ?_
    rintro ⟨hq, hpre⟩
    rcases NodePath.prefix_steps_iff.1 hpre with rfl | habove
    · exact hpath hq
    · exact hpath (mem_paths_of_mem_ancestors hq (NodePath.mem_ancestors_iff.2 habove))

/-- A listed path is followed by all paths below it. -/
theorem paths_eq_append {tree : Option Node} (hpath : path ∈ (ofTree tree).paths) :
    ∃ above rest, (ofTree tree).paths =
      above ++ path :: (ofTree tree).paths.filter (path.isAncestorOf ·) ++ rest := by
  cases tree with
  | none => cases hpath
  | some n =>
    obtain ⟨m, hm⟩ := mem_paths_ofTree_iff.1 hpath
    obtain ⟨before, after, hentries, _⟩ := entries_eq_append hm
    have hblock : (m.preorder path).map (·.path) =
        path :: (m.preorderBelow path).map (·.path) := by
      rw [Node.preorder_eq_cons]
      rfl
    have hall : ∀ q ∈ (m.preorderBelow path).map (·.path), path.isAncestorOf q = true := by
      simpa using fun e he => Node.isAncestorOf_of_mem_preorderBelow he
    have hbelow : (ofTree (some n)).paths.filter (path.isAncestorOf ·) =
        (m.preorderBelow path).map (·.path) := by
      calc (ofTree (some n)).paths.filter (path.isAncestorOf ·)
          = ((ofTree (some n)).paths.filter fun q => path = q ∨ path.isAncestorOf q = true).filter
              (path.isAncestorOf ·) := by
            rw [List.filter_filter]
            exact List.filter_congr fun q _ => by cases path.isAncestorOf q <;> simp
        _ = (path :: (m.preorderBelow path).map (·.path)).filter (path.isAncestorOf ·) := by
            rw [filter_paths_of_follow? hm, hblock]
        _ = (m.preorderBelow path).map (·.path) := by
            simp only [List.filter_cons, path.isAncestorOf_self, List.filter_eq_self.2 hall]
            simp
    refine ⟨before.map (·.path), after.map (·.path), ?_⟩
    rw [hbelow, ← hblock, paths, hentries]
    simp

/-- Of a listed path whose level is exact, the subtree has the path itself first and then the paths
of the nodes below it, in document order. A path without a node has none. -/
theorem subtree_lists_descendants (tree : Option Node) (path : NodePath)
    (hdepth : path.depth < levelLimit) :
    let l := ofTree tree
    (l.subtree path = l.paths.filter fun q => path = q ∨ path.isAncestorOf q = true) ∧
      (path ∈ l.paths → (l.subtree path).head? = some path) ∧
      (l.subtree path = [] ↔ tree.bind (·.follow? path.steps) = none) := by
  intro l
  cases tree with
  | none => exact ⟨rfl, by simp [l, paths, ofTree], iff_of_true rfl rfl⟩
  | some n =>
    cases hfollow : n.follow? path.steps with
    | none =>
      have hmissing : path ∉ l.paths := by simp [l, mem_paths_ofTree_iff, hfollow]
      have hsubtree : l.subtree path = [] := by
        refine subtree_of_contains_eq_false ?_
        rwa [← Bool.not_eq_true, contains_iff]
      have hfilter : ∀ q ∈ l.paths, ¬ path.steps <+: q.steps := by
        intro q hq hpre
        obtain ⟨k, hk⟩ := mem_paths_ofTree_iff.1 hq
        obtain ⟨m, hm⟩ := Node.exists_follow?_of_prefix_steps hpre hk
        exact absurd (hm.symm.trans hfollow) (by simp)
      refine ⟨?_, fun hmem => absurd hmem hmissing, iff_of_true hsubtree hfollow⟩
      simp only [← NodePath.prefix_steps_iff]
      rw [hsubtree, List.filter_eq_nil_iff.2 (by simpa using hfilter)]
    | some m =>
      have hsubtree : l.subtree path = (m.preorder path).map (·.path) :=
        subtree_of_follow? hfollow hdepth
      rw [hsubtree, Option.bind_some, hfollow]
      refine ⟨(filter_paths_of_follow? hfollow).symm, fun _ => ?_, iff_of_false ?_ (by simp)⟩
      · rw [Node.preorder_eq_cons]
        rfl
      · rw [Node.preorder_eq_cons]
        exact List.cons_ne_nil _ _

theorem subtree_lists_descendants_sample :
    (⟨[1]⟩ : NodePath).depth < levelLimit ∧
      (ofTree (some Node.sample)).subtree ⟨[1]⟩ = [⟨[1]⟩, ⟨[1, 0]⟩] ∧
      (⟨[10]⟩ : NodePath).depth < levelLimit ∧
      (ofTree (some Node.sample)).subtree ⟨[10]⟩ = [] := by
  have hlisted := (subtree_lists_descendants (some Node.sample) ⟨[1]⟩ (by decide)).1
  have hmissing := (subtree_lists_descendants (some Node.sample) ⟨[10]⟩ (by decide)).2.2
  refine ⟨by decide, ?_, by decide, hmissing.2 rfl⟩
  rw [hlisted]
  decide +kernel

end Listing

end SyntaxOutline
