import SyntaxOutline.Proofs.Listing.Lookup
import SyntaxOutline.Proofs.Node.Locate

/-! # The recursive search

To search a node that covers an offset is to search its children in order, and to take the node
itself if none of these searches succeeds. A search succeeds just when its node covers the offset,
so there is nothing to come back for: the way down through the first covering children ends at the
same node, also where spans do not nest. -/
namespace SyntaxOutline.Node

mutual

/-- The innermost node found by searching the children first. -/
def search? (offset : Nat) : Node → Option Node
  | ⟨kind, span, children, attributes, fieldName⟩ =>
    if span.covers offset then
      match searchAny? offset children with
      | some found => some found
      | none => some ⟨kind, span, children, attributes, fieldName⟩
    else none

/-- The result of the first search among siblings that succeeds. -/
def searchAny? (offset : Nat) : List Node → Option Node
  | [] => none
  | child :: rest =>
    match search? offset child with
    | some found => some found
    | none => searchAny? offset rest

end

variable {n m : Node} {offset : Nat} {path : NodePath}

theorem searchAny?_eq_findSome? (offset : Nat) (children : List Node) :
    searchAny? offset children = children.findSome? (search? offset) := by
  induction children with
  | nil => rfl
  | cons child rest ih =>
    rw [searchAny?, List.findSome?_cons, ih]
    cases search? offset child with
    | none => rfl
    | some found => rfl

theorem search?_eq (offset : Nat) (n : Node) :
    search? offset n =
      if n.span.covers offset then some ((n.children.findSome? (search? offset)).getD n)
      else none := by
  obtain ⟨kind, span, children, attributes, fieldName⟩ := n
  rw [search?, searchAny?_eq_findSome?]
  cases children.findSome? (search? offset) with
  | none => rfl
  | some found => rfl

theorem isSome_search? (offset : Nat) (n : Node) :
    (search? offset n).isSome = n.span.covers offset := by
  rw [search?_eq]
  cases n.span.covers offset with
  | false => rfl
  | true => rfl

/-- Where just the elements with a property give a result, the first of them gives the first. -/
theorem findSome?_of_isSome {α β : Type} {l : List α} {p : α → Bool} {f : α → Option β}
    (h : ∀ x ∈ l, (f x).isSome = p x) : l.findSome? f = (l.find? p).bind f := by
  induction l with
  | nil => rfl
  | cons x rest ih =>
    have hx := h x List.mem_cons_self
    have hrest := ih fun y hy => h y (List.mem_cons_of_mem x hy)
    rw [List.findSome?_cons, List.find?_cons, ← hx]
    cases hfx : f x with
    | none => exact hrest
    | some y => exact hfx.symm

theorem findSome?_search? (offset : Nat) (n : Node) :
    n.children.findSome? (search? offset) =
      (n.coveringChild? offset).bind fun c => search? offset c.1 := by
  have hchildren : n.children.zipIdx.map Prod.fst = n.children := List.zipIdx_map_fst 0 _
  rw [← hchildren, List.findSome?_map]
  exact findSome?_of_isSome fun c _ => isSome_search? offset c.1

/-- Only the first child that covers the offset counts in the search of a node that does. -/
theorem search?_of_covers (h : n.span.covers offset = true) :
    search? offset n =
      some (((n.coveringChild? offset).bind fun c => search? offset c.1).getD n) := by
  rw [search?_eq, if_pos h, findSome?_search?]

/-- From a node that covers the offset, the way down ends where the search does. -/
theorem search?_eq_descend (h : n.span.covers offset = true) (path : NodePath) :
    search? offset n = some (n.descend path offset).1 := by
  fun_induction descend n path offset with
  | case1 n path hnone =>
    rw [search?_of_covers h, hnone]
    rfl
  | case2 n path c ordinal hsome ih =>
    have hcovers := (coveringChild?_eq_some hsome).2
    rw [search?_of_covers h, hsome, Option.bind_some, ih hcovers]
    rfl

theorem map_fst_locate? (n : Node) (offset : Nat) :
    (n.locate? offset).map (·.1) = search? offset n := by
  rw [locate?]
  split
  next hcovers => exact (search?_eq_descend hcovers NodePath.root).symm
  next hmiss => rw [search?_eq, if_neg hmiss, Option.map_none]

/-- The way down ends at a node without a child that covers the offset. -/
theorem coveringChild?_descend (n : Node) (path : NodePath) (offset : Nat) :
    (n.descend path offset).1.coveringChild? offset = none := by
  fun_induction descend n path offset with
  | case1 n path hnone => exact hnone
  | case2 n path c ordinal hsome ih => exact ih

theorem covers_eq_false_of_coveringChild? {c : Node} (h : n.coveringChild? offset = none)
    (hc : c ∈ n.children) : c.span.covers offset = false := by
  obtain ⟨ordinal, hordinal⟩ := List.mem_iff_getElem?.1 hc
  have hmem : (c, ordinal) ∈ n.children.zipIdx := List.mk_mem_zipIdx_iff_getElem?.2 hordinal
  exact Bool.eq_false_iff.2 (List.find?_eq_none.1 h _ hmem)

theorem covers_eq_false_of_locate? {c : Node} (h : n.locate? offset = some (m, path))
    (hc : c ∈ m.children) : c.span.covers offset = false := by
  have hnone := n.coveringChild?_descend NodePath.root offset
  rw [(locate?_eq_some_iff.1 h).2] at hnone
  exact covers_eq_false_of_coveringChild? hnone hc

/-- The way down to an offset finds the node of the recursive search, under its path in the tree and
in the listing. It and all nodes above it cover the offset, and none of its children does. -/
theorem locate?_searches (n : Node) (offset : Nat) :
    (n.locate? offset).map (·.1) = search? offset n ∧
      ((n.locate? offset).map (·.2)).isSome = (search? offset n).isSome ∧
      ∀ m path, n.locate? offset = some (m, path) →
        (n.Fits → n.at? path = some m) ∧
        (∃ e ∈ (Listing.ofTree (some n)).entries, e.path = path ∧ e.node = m) ∧
        m.span.covers offset = true ∧
        (∀ ancestor ∈ path.ancestors, ∃ k, n.follow? ancestor.steps = some k ∧
          k.span.covers offset = true) ∧
        ∀ c ∈ m.children, c.span.covers offset = false := by
  refine ⟨map_fst_locate? n offset, ?_, fun m path hlocate => ?_⟩
  · rw [← map_fst_locate?, Option.isSome_map, Option.isSome_map]
  · obtain ⟨hfollow, halong⟩ := locate?_eq_some hlocate
    refine ⟨fun hfits => hfits.at?_of_follow? hfollow, ⟨Entry.ofNode m path, ?_, rfl, rfl⟩,
      halong path.steps m List.prefix_rfl hfollow, fun ancestor hancestor => ?_,
      fun c => covers_eq_false_of_locate? hlocate⟩
    · exact Listing.mem_entries_ofTree_iff.2 ⟨m, hfollow, rfl⟩
    · have hprefix := NodePath.prefix_of_mem_ancestors hancestor
      obtain ⟨k, hk⟩ := exists_follow?_of_prefix_steps hprefix hfollow
      exact ⟨k, hk, halong ancestor.steps k hprefix hk⟩

/-- Of two overlapping siblings the first one is found, though the other has a child at the
offset. -/
theorem locate?_searches_overlapping :
    let n : Node :=
      { kind := "File", span := ⟨0, 30⟩
        children :=
          [{ kind := "FuncDecl", span := ⟨10, 20⟩
             children := [{ kind := "Ident", span := ⟨25, 40⟩ }] },
            { kind := "FuncDecl", span := ⟨5, 25⟩
              children := [{ kind := "Ident", span := ⟨12, 18⟩ }] }] }
    n.Fits ∧ (n.locate? 15).map (·.2) = some ⟨[0]⟩ ∧
      ∃ m, search? 15 n = some m ∧ n.at? ⟨[0]⟩ = some m ∧ m.span.covers 15 = true := by
  intro n
  have hfits : n.Fits := by simp [n, Fits, all_mk, Text.wordLimit]
  have hpath : (n.locate? 15).map (·.2) = some ⟨[0]⟩ := by decide +kernel
  obtain ⟨⟨m, path⟩, hlocate, rfl⟩ := Option.map_eq_some_iff.1 hpath
  obtain ⟨hsearch, _, hfound⟩ := locate?_searches n 15
  obtain ⟨hat, _, hcovers, _⟩ := hfound m ⟨[0]⟩ hlocate
  refine ⟨hfits, hpath, m, ?_, hat hfits, hcovers⟩
  rw [← hsearch, hlocate]
  rfl

end SyntaxOutline.Node
