import SyntaxOutline.Node

/-! # The node at a cursor

From a node that covers the cursor the search goes down into the first child that covers it, for as
long as there is one. -/
namespace SyntaxOutline.Node

def coveringChild? (n : Node) (offset : Nat) : Option (Node × Nat) :=
  n.children.zipIdx.find? fun child => child.1.span.covers offset

theorem mem_of_coveringChild? {n c : Node} {offset ordinal : Nat}
    (h : n.coveringChild? offset = some (c, ordinal)) : c ∈ n.children :=
  List.fst_mem_of_mem_zipIdx (List.mem_of_find?_eq_some h)

/-- The last node on the way down, with its path. -/
def descend (n : Node) (path : NodePath) (offset : Nat) : Node × NodePath :=
  match _h : n.coveringChild? offset with
  | none => (n, path)
  | some (child, ordinal) => descend child (path.child ordinal) offset
termination_by n.size
decreasing_by exact size_lt_of_mem (mem_of_coveringChild? _h)

/-- The innermost node found at an offset, with its path; none outside the whole tree. -/
def locate? (n : Node) (offset : Nat) : Option (Node × NodePath) :=
  if n.span.covers offset then some (n.descend NodePath.root offset) else none

end SyntaxOutline.Node
