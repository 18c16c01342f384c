import SyntaxOutline.Node

/-! # Descending into trees

The node at the end of a list of child ordinals, and properties of all nodes of a tree. Where every
list of children is shorter than the word limit, the steps of a path that leads to a node are words,
so looking a path up passes none of them over. -/
namespace SyntaxOutline.Node

/-- A property of all nodes of a tree. -/
inductive All (P : Node → Prop) : Node → Prop
  | intro {n : Node} (here : P n) (below : ∀ c ∈ n.children, All P c) : All P n

/-- Every list of children is shorter than the word limit. -/
def Fits (n : Node) : Prop := n.All fun m => m.children.length < Text.wordLimit

/-- The node reached by taking the child with each of the ordinals in turn. -/
def follow? (n : Node) : List Nat → Option Node
  | [] => some n
  | ordinal :: rest => n.children[ordinal]?.bind fun c => c.follow? rest

theorem all_iff {P : Node → Prop} {n : Node} : n.All P ↔ P n ∧ ∀ c ∈ n.children, c.All P := by
  constructor
  · intro h
    cases h with
    | intro here below => exact ⟨here, below⟩
  · intro h
    exact .intro h.1 h.2

theorem all_mk {P : Node → Prop} {kind : String} {span : Span} {children : List Node}
    {attributes : Attributes} {fieldName : Option String} :
    (⟨kind, span, children, attributes, fieldName⟩ : Node).All P ↔
      P ⟨kind, span, children, attributes, fieldName⟩ ∧ ∀ c ∈ children, c.All P :=
  all_iff

theorem All.here {P : Node → Prop} {n : Node} (h : n.All P) : P n := (all_iff.1 h).1

theorem All.of_mem {P : Node → Prop} {n c : Node} (h : n.All P) (hc : c ∈ n.children) :
    c.All P :=
  (all_iff.1 h).2 c hc

theorem All.imp {P Q : Node → Prop} {n : Node} (hPQ : ∀ m, P m → Q m) (h : n.All P) :
    n.All Q := by
  induction h with
  | intro here _ ih => exact .intro (hPQ _ here) ih

/-- What holds of all nodes of a tree holds of all nodes of each subtree. -/
theorem All.subtrees {P : Node → Prop} {n : Node} (h : n.All P) : n.All fun m => m.All P := by
  induction h with
  | intro here below ih => exact .intro (.intro here below) ih

/-- A file with two children, one of which has a child of its own. -/
def sample : Node :=
  { kind := "File", span := ⟨0, 40⟩
    children :=
      [{ kind := "Ident", span := ⟨8, 12⟩ },
        { kind := "FuncDecl", span := ⟨14, 40⟩
          children := [{ kind := "Ident", span := ⟨19, 23⟩, fieldName := some "Name" }] }] }

theorem fits_sample : sample.Fits := by
  simp [Fits, sample, all_mk, Text.wordLimit]

theorem follow?_cons_eq_some {n m : Node} {ordinal : Nat} {rest : List Nat} :
    n.follow? (ordinal :: rest) = some m ↔
      ∃ c, n.children[ordinal]? = some c ∧ c.follow? rest = some m := by
  rw [follow?, Option.bind_eq_some_iff]

theorem follow?_append (n : Node) (steps more : List Nat) :
    n.follow? (steps ++ more) = (n.follow? steps).bind fun m => m.follow? more := by
  induction steps generalizing n with
  | nil => rfl
  | cons ordinal rest ih => simp [follow?, Option.bind_assoc, ih]

theorem follow?_child_eq {n m : Node} {path : NodePath} (hm : n.follow? path.steps = some m)
    (ordinal : Nat) : n.follow? (path.child ordinal).steps = m.children[ordinal]? := by
  rw [NodePath.child, follow?_append, hm]
  simp [follow?]

theorem follow?_child {n m c : Node} {path : NodePath} {ordinal : Nat}
    (hm : n.follow? path.steps = some m) (hc : m.children[ordinal]? = some c) :
    n.follow? (path.child ordinal).steps = some c := by
  rw [follow?_child_eq hm, hc]

/-- A property of all nodes holds of the node at the end of a path, and of those below it. -/
theorem All.follow {P : Node → Prop} {n m : Node} {steps : List Nat} (h : n.All P)
    (hm : n.follow? steps = some m) : m.All P := by
  induction steps generalizing n with
  | nil =>
    obtain rfl : n = m := by simpa [follow?] using hm
    exact h
  | cons ordinal rest ih =>
    obtain ⟨c, hc, hrest⟩ := follow?_cons_eq_some.1 hm
    exact ih (h.of_mem (List.mem_of_getElem? hc)) hrest

/-- Conversely, what holds at the end of every path holds of all nodes. -/
theorem all_iff_follow {P : Node → Prop} {n : Node} :
    n.All P ↔ ∀ steps m, n.follow? steps = some m → P m := by
  constructor
  · intro h steps m hm
    exact (h.follow hm).here
  · induction n using Node.induction with
    | step n ih =>
      intro h
      refine .intro (h [] n rfl) fun c hc => ih c hc fun steps m hm => ?_
      obtain ⟨ordinal, hordinal⟩ := List.mem_iff_getElem?.1 hc
      exact h (ordinal :: steps) m (follow?_cons_eq_some.2 ⟨c, hordinal, hm⟩)

theorem at?_eq_follow? (n : Node) (path : NodePath) : n.at? path = n.follow? path.ordinals := by
  rw [at?]
  induction path.ordinals generalizing n with
  | nil => rfl
  | cons ordinal rest ih =>
    rw [List.foldlM_cons, follow?]
    exact Option.bind_congr fun c _ => ih c

theorem at?_child (n : Node) (path : NodePath) {ordinal : Nat}
    (h : ordinal < Text.wordLimit) :
    n.at? (path.child ordinal) = (n.at? path).bind fun m => m.children[ordinal]? := by
  have hordinals : (path.child ordinal).ordinals = path.ordinals ++ [ordinal] := by
    simp [NodePath.ordinals, NodePath.child, h]
  rw [at?_eq_follow?, at?_eq_follow?, hordinals, follow?_append]
  simp [follow?]

theorem Fits.step_lt {n m : Node} {steps : List Nat} (h : n.Fits) (hm : n.follow? steps = some m) :
    ∀ step ∈ steps, step < Text.wordLimit := by
  induction steps generalizing n with
  | nil => simp
  | cons ordinal rest ih =>
    obtain ⟨c, hc, hrest⟩ := follow?_cons_eq_some.1 hm
    have hlt : ordinal < n.children.length := (List.getElem?_eq_some_iff.1 hc).1
    have hhere := h.here
    have hbelow := ih (h.of_mem (List.mem_of_getElem? hc)) hrest
    intro step hstep
    rcases List.mem_cons.1 hstep with rfl | hstep
    · omega
    · exact hbelow step hstep

/-- In a tree that fits words, looking up a path is following its steps. -/
theorem Fits.at?_of_follow? {n m : Node} {path : NodePath} (h : n.Fits)
    (hm : n.follow? path.steps = some m) : n.at? path = some m := by
  rw [at?_eq_follow?, NodePath.ordinals_eq_steps (h.step_lt hm), hm]

theorem exists_follow?_of_prefix_steps {n m : Node} {passed steps : List Nat} (h : passed <+: steps)
    (hm : n.follow? steps = some m) : ∃ k, n.follow? passed = some k := by
  obtain ⟨rest, rfl⟩ := h
  rw [follow?_append] at hm
  obtain ⟨k, hk, _⟩ := Option.bind_eq_some_iff.1 hm
  exact ⟨k, hk⟩

/-- If a path names a node, so does every path that it runs through. -/
theorem exists_at?_of_prefix_steps {n m : Node} {p q : NodePath} (hpq : p.steps <+: q.steps)
    (hq : n.at? q = some m) : ∃ k, n.at? p = some k := by
  rw [at?_eq_follow?] at hq ⊢
  exact exists_follow?_of_prefix_steps (hpq.filter _) hq

theorem mem_childrenAt {n c : Node} {path q : NodePath} :
    (c, q) ∈ n.childrenAt path ↔
      ∃ ordinal, n.children[ordinal]? = some c ∧ q = path.child ordinal := by
  simp only [childrenAt, List.mem_map, Prod.mk.injEq, Prod.exists, List.mk_mem_zipIdx_iff_getElem?]
  constructor
  · rintro ⟨d, ordinal, hd, rfl, rfl⟩
    exact ⟨ordinal, hd, rfl⟩
  · rintro ⟨ordinal, hc, rfl⟩
    exact ⟨c, ordinal, hc, rfl, rfl⟩

theorem forall_mem_childrenAt {P : Node → Prop} {n : Node} {path : NodePath} :
    (∀ c ∈ n.childrenAt path, P c.1) ↔ ∀ c ∈ n.children, P c := by
  rw [← n.map_fst_childrenAt path, List.forall_mem_map]

theorem getElem?_childrenAt (n : Node) (path : NodePath) (i : Nat) :
    (n.childrenAt path)[i]? = n.children[i]?.map fun c => (c, path.child i) := by
  simp [childrenAt, Option.map_map, Function.comp_def]

theorem map_snd_childrenAt (n : Node) (path : NodePath) :
    (n.childrenAt path).map (·.2) = (List.range n.children.length).map path.child := by
  have hsnd : n.children.zipIdx.map (·.2) = List.range n.children.length := by
    simp [List.range_eq_range']
  rw [← hsnd, childrenAt, List.map_map, List.map_map]
  rfl

end SyntaxOutline.Node
