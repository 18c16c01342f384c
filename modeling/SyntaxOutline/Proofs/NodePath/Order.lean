import Mathlib.Data.List.Induction
import SyntaxOutline.NodePath

/-! # Document order and ancestry

A path comes before the paths that run through it, and what lies below an earlier child before what
lies below a later one: so it comes after its ancestors and after what is to the left of it. The
ancestors of a path are the paths that it properly runs through. -/
namespace SyntaxOutline.NodePath

/-- A statement on all paths, from its truth at the root and at each child of a path. -/
theorem induction {motive : NodePath → Prop} (root : motive root)
    (child : ∀ p ordinal, motive p → motive (p.child ordinal)) : ∀ p, motive p := by
  rintro ⟨steps⟩
  induction steps using List.reverseRecOn with
  | nil => exact root
  | append_singleton above ordinal ih => exact child ⟨above⟩ ordinal ih

theorem ne_of_lt {p q : NodePath} (h : p < q) : p ≠ q := by
  rintro rfl
  exact lt_irrefl p h

theorem lt_of_steps_cons (steps : List Nat) (ordinal : Nat) (rest : List Nat) :
    (⟨steps⟩ : NodePath) < ⟨steps ++ ordinal :: rest⟩ := by
  have h : steps ++ [] < steps ++ ordinal :: rest :=
    List.append_left_lt (List.nil_lt_cons ordinal rest)
  rw [List.append_nil] at h
  exact h

theorem lt_of_ordinal_lt (steps : List Nat) {i j : Nat} (h : i < j) (xs ys : List Nat) :
    (⟨steps ++ i :: xs⟩ : NodePath) < ⟨steps ++ j :: ys⟩ :=
  List.append_left_lt (List.cons_lt_cons_iff.2 (.inl h))

/-- Lists in document order with the same members are equal. -/
theorem eq_of_ascending {ps qs : List NodePath} (hps : ps.Pairwise (· < ·))
    (hqs : qs.Pairwise (· < ·)) (h : ∀ p, p ∈ ps ↔ p ∈ qs) : ps = qs := by
  have hperm : ps.Perm qs := (List.perm_ext_iff_of_nodup (hps.imp ne_of_lt) (hqs.imp ne_of_lt)).2 h
  refine hperm.eq_of_pairwise (fun p q _ _ hpq hqp => ?_) hps hqs
  exact absurd (lt_trans hpq hqp) (lt_irrefl p)

/-- In document order what comes before an element stands to its left. -/
theorem mem_left_of_lt {α : Type} {path : α → NodePath} {above below : List α} {a b : α}
    (h : (above ++ b :: below).Pairwise fun x y => path x < path y)
    (ha : a ∈ above ++ b :: below) (hlt : path a < path b) : a ∈ above := by
  have hbelow := (List.pairwise_cons.1 (List.pairwise_append.1 h).2.1).1
  rcases List.mem_append.1 ha with ha | ha
  · exact ha
  · rcases List.mem_cons.1 ha with rfl | ha
    · exact absurd hlt (lt_irrefl (path a))
    · exact absurd (lt_trans hlt (hbelow a ha)) (lt_irrefl (path a))

theorem lt_child (p : NodePath) (ordinal : Nat) : p < p.child ordinal :=
  lt_of_steps_cons p.steps ordinal []

theorem ascending_children (p : NodePath) (count : Nat) :
    ((List.range count).map p.child).Pairwise (· < ·) :=
  List.pairwise_map.2 (List.pairwise_lt_range.imp fun hlt => lt_of_ordinal_lt p.steps hlt [] [])

theorem child_steps_append (p : NodePath) (ordinal : Nat) (rest : List Nat) :
    (p.child ordinal).steps ++ rest = p.steps ++ ordinal :: rest := by
  simp [child]

theorem mem_ancestors_iff {p q : NodePath} : p ∈ q.ancestors ↔ p.isAncestorOf q = true := by
  rw [isAncestorOf_iff]
  simp only [ancestors, List.mem_map, List.mem_range, depth]
  constructor
  · rintro ⟨n, hn, rfl⟩
    exact ⟨List.take_prefix n q.steps, by simp only [List.length_take]; omega⟩
  · rintro ⟨hpre, hlt⟩
    obtain ⟨steps⟩ := p
    exact ⟨steps.length, hlt, by rw [← List.prefix_iff_eq_take.1 hpre]⟩

theorem prefix_of_mem_ancestors {p q : NodePath} (h : p ∈ q.ancestors) : p.steps <+: q.steps :=
  (isAncestorOf_iff.1 (mem_ancestors_iff.1 h)).1

/-- A path runs through itself and through its ancestors. -/
theorem prefix_steps_iff {p q : NodePath} :
    p.steps <+: q.steps ↔ p = q ∨ p.isAncestorOf q = true := by
  constructor
  · intro hpre
    by_cases hlt : p.depth < q.depth
    · exact .inr (isAncestorOf_iff.2 ⟨hpre, hlt⟩)
    · obtain ⟨steps⟩ := p
      obtain ⟨steps'⟩ := q
      obtain rfl : steps = steps' := hpre.eq_of_length_le (Nat.le_of_not_lt hlt)
      exact .inl rfl
  · rintro (rfl | hancestor)
    · exact List.prefix_rfl
    · exact (isAncestorOf_iff.1 hancestor).1

/-- What is below a path comes at or after its first child. -/
theorem eq_or_child_zero_lt {p q : NodePath} (h : p.isAncestorOf q = true) :
    q = p.child 0 ∨ p.child 0 < q := by
  obtain ⟨⟨rest, hrest⟩, hlt⟩ := isAncestorOf_iff.1 h
  obtain ⟨steps⟩ := q
  obtain rfl : p.steps ++ rest = steps := hrest
  cases rest with
  | nil => simp [depth] at hlt
  | cons ordinal rest =>
    rcases Nat.eq_zero_or_pos ordinal with rfl | hpos
    · cases rest with
      | nil => exact .inl rfl
      | cons next rest =>
        have hbelow := lt_of_steps_cons (p.child 0).steps next rest
        rw [child_steps_append] at hbelow
        exact .inr hbelow
    · exact .inr (lt_of_ordinal_lt p.steps hpos [] rest)

/-- The first path goes on to an earlier child of the node at which the two part. -/
def LeftOf (p q : NodePath) : Prop :=
  ∃ common i j xs ys, i < j ∧ p.steps = common ++ i :: xs ∧ q.steps = common ++ j :: ys

theorem not_root_leftOf (p : NodePath) : ¬ root.LeftOf p := by
  rintro ⟨common, i, j, xs, ys, _, hp, _⟩
  cases common with
  | nil => cases hp
  | cons _ _ => cases hp

theorem not_leftOf_root (p : NodePath) : ¬ p.LeftOf root := by
  rintro ⟨common, i, j, xs, ys, _, _, hq⟩
  cases common with
  | nil => cases hq
  | cons _ _ => cases hq

theorem cons_leftOf_cons_iff {i j : Nat} {xs ys : List Nat} :
    (⟨i :: xs⟩ : NodePath).LeftOf ⟨j :: ys⟩ ↔ i < j ∨ i = j ∧ (⟨xs⟩ : NodePath).LeftOf ⟨ys⟩ := by
  constructor
  · rintro ⟨common, k, l, ks, ls, hlt, hx, hy⟩
    cases common with
    | nil =>
      obtain ⟨rfl, rfl⟩ := List.cons.inj hx
      obtain ⟨rfl, rfl⟩ := List.cons.inj hy
      exact .inl hlt
    | cons first common =>
      obtain ⟨rfl, rfl⟩ := List.cons.inj hx
      obtain ⟨rfl, rfl⟩ := List.cons.inj hy
      exact .inr ⟨rfl, common, k, l, ks, ls, hlt, rfl, rfl⟩
  · rintro (hlt | ⟨rfl, common, k, l, ks, ls, hlt, hx, hy⟩)
    · exact ⟨[], i, j, xs, ys, hlt, rfl, rfl⟩
    · exact ⟨i :: common, k, l, ks, ls, hlt, congrArg (i :: ·) hx, congrArg (i :: ·) hy⟩

theorem cons_isAncestorOf_cons_iff {i j : Nat} {xs ys : List Nat} :
    (⟨i :: xs⟩ : NodePath).isAncestorOf ⟨j :: ys⟩ = true ↔
      i = j ∧ (⟨xs⟩ : NodePath).isAncestorOf ⟨ys⟩ = true := by
  simp [isAncestorOf_iff, depth, List.cons_prefix_cons, and_assoc]

/-- What is at or below the two paths lies in the same order. -/
theorem LeftOf.below {p q p' q' : NodePath} (h : p.LeftOf q) (hp : p.steps <+: p'.steps)
    (hq : q.steps <+: q'.steps) : p'.LeftOf q' := by
  obtain ⟨common, i, j, xs, ys, hlt, hxs, hys⟩ := h
  obtain ⟨more, hmore⟩ := hp
  obtain ⟨others, hothers⟩ := hq
  refine ⟨common, i, j, xs ++ more, ys ++ others, hlt, ?_, ?_⟩
  · simp [← hmore, hxs]
  · simp [← hothers, hys]

/-- In document order a path comes after its ancestors and after what is to the left of it. -/
theorem lt_iff_isAncestorOf_or_leftOf {p q : NodePath} :
    p < q ↔ p.isAncestorOf q = true ∨ p.LeftOf q := by
  obtain ⟨xs⟩ := p
  obtain ⟨ys⟩ := q
  induction xs generalizing ys with
  | nil =>
    have hleft : ¬ (⟨[]⟩ : NodePath).LeftOf ⟨ys⟩ := not_root_leftOf ⟨ys⟩
    rw [or_iff_left hleft]
    cases ys with
    | nil => simp [lt_def, isAncestorOf]
    | cons j ys => simp [lt_def, isAncestorOf_iff, depth]
  | cons i xs ih =>
    cases ys with
    | nil =>
      have hleft : ¬ (⟨i :: xs⟩ : NodePath).LeftOf ⟨[]⟩ := not_leftOf_root ⟨i :: xs⟩
      rw [or_iff_left hleft]
      simp [lt_def, isAncestorOf]
    | cons j ys =>
      have hlt : (⟨i :: xs⟩ : NodePath) < ⟨j :: ys⟩ ↔
          i < j ∨ i = j ∧ (⟨xs⟩ : NodePath) < ⟨ys⟩ := List.cons_lt_cons_iff
      rw [hlt, ih, cons_isAncestorOf_cons_iff, cons_leftOf_cons_iff, and_or_left, or_left_comm]

theorem lt_of_isAncestorOf {p q : NodePath} (h : p.isAncestorOf q = true) : p < q :=
  lt_iff_isAncestorOf_or_leftOf.2 (.inl h)

theorem LeftOf.lt {p q : NodePath} (h : p.LeftOf q) : p < q :=
  lt_iff_isAncestorOf_or_leftOf.2 (.inr h)

theorem lt_or_lt_of_ne {p q : NodePath} (h : p ≠ q) : p < q ∨ q < p := by
  by_cases hlt : p < q
  · exact .inl hlt
  · exact .inr (lt_of_not_lt hlt h)

/-- A path does not come before those that it runs through. -/
theorem not_lt_of_prefix_steps {p q : NodePath} (h : p.steps <+: q.steps) : ¬ q < p := by
  intro hlt
  rcases prefix_steps_iff.1 h with rfl | hancestor
  · exact lt_irrefl p hlt
  · exact lt_irrefl p (lt_trans (lt_of_isAncestorOf hancestor) hlt)

theorem child_lt_child_iff {p : NodePath} {i j : Nat} : p.child i < p.child j ↔ i < j := by
  constructor
  · intro h
    by_contra hle
    rcases Nat.lt_or_eq_of_le (Nat.le_of_not_lt hle) with hlt | rfl
    · exact lt_irrefl _ (lt_trans h (lt_of_ordinal_lt p.steps hlt [] []))
    · exact lt_irrefl _ h
  · intro h
    exact lt_of_ordinal_lt p.steps h [] []

theorem isAncestorOf_self (p : NodePath) : p.isAncestorOf p = false := by
  simp [isAncestorOf]

theorem isAncestorOf_of_prefix_steps {p a q : NodePath} (hpre : p.steps <+: a.steps)
    (ha : a ∈ q.ancestors) : p.isAncestorOf q = true := by
  obtain ⟨haq, hlt⟩ := isAncestorOf_iff.1 (mem_ancestors_iff.1 ha)
  exact isAncestorOf_iff.2 ⟨hpre.trans haq, Nat.lt_of_le_of_lt hpre.length_le hlt⟩

theorem root_mem_ancestors {p : NodePath} (h : p ≠ root) : root ∈ p.ancestors := by
  rw [mem_ancestors_iff]
  rcases prefix_steps_iff.1 (List.nil_prefix : root.steps <+: p.steps) with heq | hancestor
  · exact absurd heq.symm h
  · exact hancestor

theorem parent?_eq_none_iff {p : NodePath} : p.parent? = none ↔ p = root := by
  obtain ⟨steps⟩ := p
  simp [parent?, isRoot, root]

theorem parent?_eq_some_iff {p q : NodePath} :
    q.parent? = some p ↔ ∃ ordinal, q = p.child ordinal := by
  constructor
  · intro h
    obtain ⟨steps⟩ := q
    rcases List.eq_nil_or_concat steps with rfl | ⟨above, ordinal, rfl⟩
    · simp [parent?, isRoot] at h
    · obtain rfl : (⟨above⟩ : NodePath) = p := by simpa [parent?, isRoot] using h
      exact ⟨ordinal, by simp [child]⟩
  · rintro ⟨ordinal, rfl⟩
    exact p.parent?_child ordinal

theorem ancestors_child (p : NodePath) (ordinal : Nat) :
    (p.child ordinal).ancestors = p.ancestors ++ [p] := by
  have htake : ∀ n ∈ List.range p.depth,
      (⟨(p.child ordinal).steps.take n⟩ : NodePath) = ⟨p.steps.take n⟩ := by
    intro n hn
    have hle : n ≤ p.steps.length := Nat.le_of_lt (List.mem_range.1 hn)
    rw [child, List.take_append_of_le_length hle]
  rw [ancestors, depth_child, List.range_succ, List.map_append, ancestors,
    List.map_congr_left htake]
  simp [child, depth]

/-- What is below a path is a child of the path or of a path below it. -/
theorem exists_child_of_isAncestorOf {p q : NodePath} (h : p.isAncestorOf q = true) :
    ∃ above ordinal, q = above.child ordinal ∧ (p = above ∨ p.isAncestorOf above = true) := by
  induction q using NodePath.induction with
  | root => simp [isAncestorOf, root, depth] at h
  | child above ordinal _ =>
    rw [← mem_ancestors_iff, ancestors_child, List.mem_append, List.mem_singleton] at h
    refine ⟨above, ordinal, rfl, ?_⟩
    rw [← mem_ancestors_iff]
    exact h.symm

theorem depth_lt_of_mem_ancestors {p q : NodePath} (h : p ∈ q.ancestors) : p.depth < q.depth :=
  (isAncestorOf_iff.1 (mem_ancestors_iff.1 h)).2

theorem mem_ancestors_trans {p q r : NodePath} (hp : p ∈ q.ancestors) (hq : q ∈ r.ancestors) :
    p ∈ r.ancestors :=
  mem_ancestors_iff.2 (isAncestorOf_of_prefix_steps (prefix_of_mem_ancestors hp) hq)

/-- Of two ancestors of a path one is an ancestor of the other. -/
theorem ancestors_total {p q r : NodePath} (hp : p ∈ r.ancestors) (hq : q ∈ r.ancestors) :
    p ∈ q.ancestors ∨ p = q ∨ q ∈ p.ancestors := by
  rw [mem_ancestors_iff, mem_ancestors_iff]
  rcases List.prefix_or_prefix_of_prefix (prefix_of_mem_ancestors hp) (prefix_of_mem_ancestors hq)
    with hpre | hpre
  · rcases prefix_steps_iff.1 hpre with heq | habove
    · exact .inr (.inl heq)
    · exact .inl habove
  · rcases prefix_steps_iff.1 hpre with heq | habove
    · exact .inr (.inl heq.symm)
    · exact .inr (.inr habove)

/-- What stands before an ancestor in the list are its own ancestors, and those after it are below
it. -/
theorem ancestors_split {p a : NodePath} {above below : List NodePath}
    (h : p.ancestors = above ++ a :: below) :
    a.ancestors = above ∧ ∀ b ∈ below, a ∈ b.ancestors := by
  induction p using NodePath.induction generalizing below with
  | root => simp [root, ancestors, depth] at h
  | child p ordinal ih =>
    rw [ancestors_child] at h
    rcases List.eq_nil_or_concat below with rfl | ⟨inner, last, rfl⟩
    · obtain ⟨habove, ha⟩ := List.append_inj' h rfl
      obtain rfl : p = a := by simpa using ha
      exact ⟨habove, by simp⟩
    · rw [List.concat_eq_append, ← List.cons_append, ← List.append_assoc] at h
      obtain ⟨hinner, hlast⟩ := List.append_inj' h rfl
      obtain rfl : p = last := by simpa using hlast
      obtain ⟨habove, hbelow⟩ := ih hinner
      have hmem : a ∈ p.ancestors := by simp [hinner]
      refine ⟨habove, ?_⟩
      simpa [or_imp, forall_and] using ⟨hbelow, hmem⟩

end SyntaxOutline.NodePath
