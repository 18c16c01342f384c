import SyntaxOutline.Attributes
import SyntaxOutline.NodePath
import SyntaxOutline.Span

/-! # Syntax trees

A node has a kind, a span of the source text, children in source order, attributes, and possibly
the name of the field that it fills in its parent. A path leads from a node to one of its
descendants. `Node.induction` proves a statement for all nodes from its truth at the children. -/
namespace SyntaxOutline

structure Node where
  kind : String
  span : Span
  children : List Node := []
  attributes : Attributes := ∅
  fieldName : Option String := none
deriving BEq, Repr

namespace Node

mutual

theorem induction {motive : Node → Prop}
    (step : ∀ n : Node, (∀ c ∈ n.children, motive c) → motive n) : ∀ n, motive n
  | ⟨kind, span, children, attributes, fieldName⟩ =>
    step ⟨kind, span, children, attributes, fieldName⟩ (induction_children step children)

theorem induction_children {motive : Node → Prop}
    (step : ∀ n : Node, (∀ c ∈ n.children, motive c) → motive n) :
    ∀ children : List Node, ∀ c ∈ children, motive c
  | [], _, h => absurd h List.not_mem_nil
  | child :: rest, c, h =>
    (List.mem_cons.1 h).elim (fun heq => heq ▸ induction step child)
      (induction_children step rest c)

end

mutual

/-- Number of nodes of the tree. -/
def size : Node → Nat
  | ⟨_, _, children, _, _⟩ => sizes children + 1

def sizes : List Node → Nat
  | [] => 0
  | child :: rest => size child + sizes rest

end

theorem size_eq (n : Node) : n.size = sizes n.children + 1 := by
  cases n; rfl

theorem size_pos (n : Node) : 0 < n.size := by
  rw [size_eq]; omega

theorem sizes_append (xs ys : List Node) : sizes (xs ++ ys) = sizes xs + sizes ys := by
  induction xs with
  | nil => simp [sizes]
  | cons x xs ih => simp [sizes, ih, Nat.add_assoc]

theorem size_le_sizes {c : Node} {children : List Node} (h : c ∈ children) :
    c.size ≤ sizes children := by
  induction children with
  | nil => cases h
  | cons x xs ih =>
    rcases List.mem_cons.1 h with rfl | h
    · rw [sizes]; omega
    · have := ih h
      rw [sizes]; omega

theorem size_lt_of_mem {n c : Node} (h : c ∈ n.children) : c.size < n.size := by
  have := size_le_sizes h
  rw [size_eq n]; omega

theorem sizes_reverse (xs : List Node) : sizes xs.reverse = sizes xs := by
  induction xs with
  | nil => rfl
  | cons x xs ih => simp [sizes, sizes_append, ih]; omega

/-- The children with their paths, for a node that has the given path. -/
def childrenAt (n : Node) (path : NodePath) : List (Node × NodePath) :=
  n.children.zipIdx.map fun (child, ordinal) => (child, path.child ordinal)

theorem map_fst_childrenAt (n : Node) (path : NodePath) :
    (n.childrenAt path).map (·.1) = n.children := by
  simp [childrenAt, List.map_map, Function.comp_def]

/-- The node at the end of a path, if there is one. -/
def at? (n : Node) (path : NodePath) : Option Node :=
  path.ordinals.foldlM (fun m ordinal => m.children[ordinal]?) n

/-- The attributes that may stand beside the kind in a label, the first choice first. -/
def labelNames : List String := ["name", "value", "path"]

/-- The kind, and one attribute that tells nodes of a kind apart. -/
def label (n : Node) : String :=
  match labelNames.findSome? n.attributes.text? with
  | some detail => n.kind ++ " " ++ detail
  | none => n.kind

end Node

end SyntaxOutline
