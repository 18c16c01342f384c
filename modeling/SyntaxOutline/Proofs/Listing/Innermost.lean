import SyntaxOutline.Proofs.Node.Nesting
import SyntaxOutline.Proofs.Node.Search

/-! # Innermost entries

On a tree with nested spans the way down to an offset has the same result as a scan of the whole
listing: the first entry that covers the offset and has no child that does. What lies under a child
that does not cover the offset does not cover it either, so the way down passes nothing over. Past
the start of a node no sibling before it covers the offset, so the way down leads through the
node. -/
namespace SyntaxOutline

/-- Whether the entry's node covers the offset, and none of its children does. -/
def Entry.isInnermost (offset : Nat) (e : Entry) : Bool :=
  e.node.span.covers offset && e.node.children.all fun c => !c.span.covers offset

namespace Node

variable {n m c : Node} {offset : Nat} {path : NodePath}

theorem Nested.of_mem (h : n.Nested) (hc : c ∈ n.children) : c.Nested where
  upright := h.upright.of_mem hc
  inside := h.inside.of_mem hc
  ordered := h.ordered.of_mem hc

/-- Every entry of a tree lies inside the root. -/
theorem Nested.contains_of_mem_preorder (h : n.Nested) {e : Entry} (he : e ∈ n.preorder path) :
    n.span.contains e.node.span = true := by
  obtain ⟨steps, m, hm, rfl⟩ := mem_preorder_iff.1 he
  exact (h.inside.here.follow hm).here

theorem Nested.find?_preorder_of_not_covers (h : n.Nested) (hmiss : n.span.covers offset = false) :
    (n.preorder path).find? (Entry.isInnermost offset) = none := by
  refine List.find?_eq_none.2 fun e he hinnermost => ?_
  have hcovers : e.node.span.covers offset = true := by
    rw [Entry.isInnermost, Bool.and_eq_true] at hinnermost
    exact hinnermost.1
  rw [Span.covers_of_contains (h.contains_of_mem_preorder he) hcovers] at hmiss
  cases hmiss

theorem isInnermost_ofNode (h : n.span.covers offset = true) :
    (Entry.ofNode n path).isInnermost offset = (n.coveringChild? offset).isNone := by
  cases hchild : n.coveringChild? offset with
  | none =>
    have hall : ∀ c ∈ n.children, c.span.covers offset = false :=
      fun c hc => covers_eq_false_of_coveringChild? hchild hc
    simpa [Entry.isInnermost, Entry.ofNode, h] using hall
  | some found =>
    obtain ⟨c, ordinal⟩ := found
    obtain ⟨hc, hcovers⟩ := coveringChild?_eq_some hchild
    have hmem : c ∈ n.children := List.mem_of_getElem? hc
    simpa [Entry.isInnermost, Entry.ofNode, h] using ⟨c, hmem, hcovers⟩

/-- The scan of a tree that covers the offset stops where the way down ends. -/
theorem Nested.find?_preorder (hn : n.Nested) (h : n.span.covers offset = true) (path : NodePath) :
    (n.preorder path).find? (Entry.isInnermost offset) =
      some (Entry.ofNode (n.descend path offset).1 (n.descend path offset).2) := by
  induction n using Node.induction generalizing path with
  | step n ih =>
    have hscan : ∀ c ∈ n.children.zipIdx,
        ((c.1.preorder (path.child c.2)).find? (Entry.isInnermost offset)).isSome =
          c.1.span.covers offset := by
      rintro ⟨c, ordinal⟩ hmem
      have hc : c ∈ n.children := List.mem_of_getElem? (List.mk_mem_zipIdx_iff_getElem?.1 hmem)
      cases hcovers : c.span.covers offset with
      | false => rw [(hn.of_mem hc).find?_preorder_of_not_covers hcovers]; rfl
      | true => rw [ih c hc (hn.of_mem hc) hcovers]; rfl
    have hchildren : ((n.childrenAt path).flatMap fun c => c.1.preorder c.2).find?
        (Entry.isInnermost offset) = (n.coveringChild? offset).bind fun c =>
          (c.1.preorder (path.child c.2)).find? (Entry.isInnermost offset) := by
      rw [List.find?_flatMap, childrenAt, List.findSome?_map]
      exact findSome?_of_isSome hscan
    rw [preorder_eq, List.find?_cons, isInnermost_ofNode h, hchildren]
    cases hchild : n.coveringChild? offset with
    | none =>
      rw [descend_of_none hchild]
      rfl
    | some found =>
      obtain ⟨c, ordinal⟩ := found
      obtain ⟨hc, hcovers⟩ := coveringChild?_eq_some hchild
      have hmem : c ∈ n.children := List.mem_of_getElem? hc
      rw [descend_of_some hchild]
      exact ih c hmem (hn.of_mem hmem) hcovers (path.child ordinal)

/-- A child is the first that covers what lies past its start. -/
theorem Nested.coveringChild?_eq_some (h : n.Nested) {ordinal : Nat}
    (hc : n.children[ordinal]? = some c) (hstart : c.span.start < offset)
    (hstop : offset ≤ c.span.stop) : n.coveringChild? offset = some (c, ordinal) := by
  obtain ⟨hlt, rfl⟩ := List.getElem?_eq_some_iff.1 hc
  refine List.find?_eq_some_iff_getElem.2 ⟨?_, ordinal, by simpa using hlt, by simp, ?_⟩
  · exact Span.covers_iff.2 ⟨Nat.le_of_lt hstart, hstop⟩
  · intro i hi
    have hbefore : n.children[i].span.stop ≤ n.children[ordinal].span.start :=
      List.pairwise_iff_getElem.1 h.ordered.here i ordinal (by omega) hlt hi
    have hmiss : ¬ n.children[i].span.covers offset = true := by
      rw [Span.covers_iff]
      omega
    simpa using hmiss

/-- From a node above it, the way down past the start of a node runs through that node. -/
theorem Nested.prefix_descend (hn : n.Nested) {steps : List Nat} (hm : n.follow? steps = some m)
    (hstart : m.span.start < offset) (hstop : offset ≤ m.span.stop) (path : NodePath) :
    path.steps ++ steps <+: (n.descend path offset).2.steps := by
  induction steps generalizing n path with
  | nil =>
    obtain rfl : n = m := by simpa [follow?] using hm
    have hcovers : n.span.covers offset = true :=
      Span.covers_iff.2 ⟨Nat.le_of_lt hstart, hstop⟩
    obtain ⟨steps, hsteps, _⟩ := descend_follows hcovers path
    rw [hsteps, List.append_nil]
    exact List.prefix_append path.steps steps
  | cons ordinal rest ih =>
    obtain ⟨c, hc, hrest⟩ := follow?_cons_eq_some.1 hm
    have hnested := hn.of_mem (List.mem_of_getElem? hc)
    obtain ⟨hleft, hright⟩ := Span.contains_iff.1 (hnested.inside.here.follow hrest).here
    have hchild := hn.coveringChild?_eq_some hc (Nat.lt_of_le_of_lt hleft hstart)
      (Nat.le_trans hstop hright)
    rw [descend_of_some hchild, ← NodePath.child_steps_append]
    exact ih hnested hrest (path.child ordinal)

/-- A file with two blocks and an empty node between them, all three at one offset. -/
def adjoining : Node :=
  { kind := "File", span := ⟨0, 40⟩
    children :=
      [{ kind := "Block", span := ⟨10, 20⟩
         children := [{ kind := "Ident", span := ⟨15, 20⟩ }] },
        { kind := "Empty", span := ⟨20, 20⟩ },
        { kind := "Block", span := ⟨20, 30⟩
          children := [{ kind := "Ident", span := ⟨21, 25⟩ }] }] }

end Node

namespace Listing

variable {n : Node} {offset : Nat}

theorem covers_root_of_mem (hn : n.Nested) {e : Entry} (he : e ∈ (ofTree (some n)).entries)
    (hcovers : e.node.span.covers offset = true) : n.span.covers offset = true := by
  rw [entries_ofTree] at he
  exact Span.covers_of_contains (hn.contains_of_mem_preorder he) hcovers

/-- On a tree that passes the check of its spans, the node found at an offset is the first listed
one that covers the offset and has no child that does; none is found just when no listed node covers
the offset. -/
theorem locate?_is_first_innermost (n : Node) (offset : Nat) (hcheck : n.spanFault? = none) :
    (n.locate? offset).map (·.2) =
        ((ofTree (some n)).entries.find? (Entry.isInnermost offset)).map (·.path) ∧
      (n.locate? offset = none ↔
        ∀ e ∈ (ofTree (some n)).entries, e.node.span.covers offset = false) := by
  have hn : n.Nested := Node.spanFault?_eq_none_iff.1 hcheck
  have hroot : Entry.ofNode n NodePath.root ∈ (ofTree (some n)).entries :=
    mem_entries_ofTree_iff.2 ⟨n, rfl, rfl⟩
  rw [Node.locate?]
  split
  next hcovers =>
    constructor
    · rw [entries_ofTree, hn.find?_preorder hcovers]
      rfl
    · have hhit : ¬ ∀ e ∈ (ofTree (some n)).entries, e.node.span.covers offset = false :=
        fun h => Bool.false_ne_true ((h _ hroot).symm.trans hcovers)
      exact iff_of_false (by simp) hhit
  next hmiss =>
    constructor
    · rw [entries_ofTree, hn.find?_preorder_of_not_covers (by simpa using hmiss)]
      rfl
    · refine iff_of_true rfl fun e he => Bool.eq_false_iff.2 fun hcovers => ?_
      exact hmiss (covers_root_of_mem hn he hcovers)

/-- Three nodes without children end or start at the offset, and the first is found. Past the end of
the tree no node covers the offset. -/
theorem locate?_is_first_innermost_adjoining :
    Node.adjoining.spanFault? = none ∧
      (Node.adjoining.locate? 20).map (·.2) = some ⟨[0, 0]⟩ ∧
      ((ofTree (some Node.adjoining)).entries.find? (Entry.isInnermost 20)).map (·.path) =
        some ⟨[0, 0]⟩ ∧
      ∀ e ∈ (ofTree (some Node.adjoining)).entries, e.node.span.covers 41 = false := by
  have hcheck : Node.adjoining.spanFault? = none := by decide +kernel
  have hlocate : (Node.adjoining.locate? 20).map (·.2) = some ⟨[0, 0]⟩ := by decide +kernel
  have hfirst := (locate?_is_first_innermost Node.adjoining 20 hcheck).1
  have hnone := (locate?_is_first_innermost Node.adjoining 41 hcheck).2
  exact ⟨hcheck, hlocate, hfirst.symm.trans hlocate, hnone.1 rfl⟩

/-- On a tree that passes the check of its spans, an offset past the start of a listed node and not
past its end leads to that node or to one below it. -/
theorem locate?_lands_in_entry (n : Node) (offset : Nat) (hcheck : n.spanFault? = none)
    (e : Entry) (he : e ∈ (ofTree (some n)).entries) (hstart : e.node.span.start < offset)
    (hstop : offset ≤ e.node.span.stop) :
    ∃ path, (n.locate? offset).map (·.2) = some path ∧
      (path = e.path ∨ e.path.isAncestorOf path = true) := by
  have hn : n.Nested := Node.spanFault?_eq_none_iff.1 hcheck
  have hcovers : n.span.covers offset = true :=
    covers_root_of_mem hn he (Span.covers_iff.2 ⟨Nat.le_of_lt hstart, hstop⟩)
  obtain ⟨m, hm, heq⟩ := mem_entries_ofTree_iff.1 he
  have hnode : e.node = m := by rw [heq]; rfl
  rw [hnode] at hstart hstop
  have hprefix := hn.prefix_descend hm hstart hstop NodePath.root
  refine ⟨(n.descend NodePath.root offset).2, ?_, ?_⟩
  · rw [Node.locate?_eq_some_iff.2 ⟨hcovers, rfl⟩, Option.map_some]
  · exact (NodePath.prefix_steps_iff.1 hprefix).imp_left Eq.symm

/-- Right past the start of the last block its child is found. At its start that is the last node of
the block before. -/
theorem locate?_lands_in_entry_adjoining :
    ∃ e ∈ (ofTree (some Node.adjoining)).entries,
      Node.adjoining.spanFault? = none ∧ e.path = ⟨[2]⟩ ∧ e.node.span = ⟨20, 30⟩ ∧
        (∃ path, (Node.adjoining.locate? 21).map (·.2) = some path ∧
          (path = e.path ∨ e.path.isAncestorOf path = true)) ∧
        (Node.adjoining.locate? 21).map (·.2) = some ⟨[2, 0]⟩ ∧
        (Node.adjoining.locate? 20).map (·.2) = some ⟨[0, 0]⟩ := by
  have hcheck : Node.adjoining.spanFault? = none := by decide +kernel
  obtain ⟨block, hblock, hspan⟩ : ∃ block, Node.adjoining.follow? [2] = some block ∧
      block.span = ⟨20, 30⟩ := ⟨_, rfl, rfl⟩
  have hmem : Entry.ofNode block ⟨[2]⟩ ∈ (ofTree (some Node.adjoining)).entries :=
    mem_entries_ofTree_iff.2 ⟨block, hblock, rfl⟩
  have hlands := locate?_lands_in_entry Node.adjoining 21 hcheck _ hmem
    (by simp [Entry.ofNode, hspan]) (by simp [Entry.ofNode, hspan])
  exact ⟨_, hmem, hcheck, rfl, hspan, hlands, by decide +kernel, by decide +kernel⟩

end Listing

end SyntaxOutline
