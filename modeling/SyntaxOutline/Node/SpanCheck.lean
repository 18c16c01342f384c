import SyntaxOutline.Node
import SyntaxOutline.NodePath.Text

/-! # Nesting of spans

In a proper tree no span is inverted, each child's span lies inside its parent's, and a child starts
no earlier than its previous sibling ends. The check looks at one node at a time: first at its own
span and then at its children in order. The nodes still to look at are on a stack, from which the
last child comes first. -/
namespace SyntaxOutline

inductive SpanFault where
  | inverted (path : NodePath) (span : Span)
  | escapes (path : NodePath) (parent span : Span)
  | unordered (path : NodePath) (previous span : Span)
deriving DecidableEq, Repr

namespace SpanFault

def path : SpanFault → NodePath
  | inverted path _ => path
  | escapes path _ _ => path
  | unordered path _ _ => path

def message : SpanFault → String
  | inverted path span =>
    "node " ++ path.text ++ " has start after end (" ++ span.describe ++ ")"
  | escapes path parent span =>
    "node " ++ path.text ++ " (" ++ span.describe ++ ") escapes its parent (" ++
      parent.describe ++ ")"
  | unordered path previous span =>
    "node " ++ path.text ++ " (" ++ span.describe ++
      ") overlaps or precedes its previous sibling (" ++ previous.describe ++ ")"

end SpanFault

namespace Node

/-- The first fault among siblings, given the span of their parent and of the one before them. -/
def siblingFault? (parent : Span) : Option Span → List (Node × NodePath) → Option SpanFault
  | _, [] => none
  | previous, (child, path) :: rest =>
    if !parent.contains child.span then some (.escapes path parent child.span)
    else
      match previous with
      | none => siblingFault? parent (some child.span) rest
      | some before =>
        if child.span.start < before.stop then some (.unordered path before child.span)
        else siblingFault? parent (some child.span) rest

def faultAt? (n : Node) (path : NodePath) : Option SpanFault :=
  if n.span.stop < n.span.start then some (.inverted path n.span)
  else siblingFault? n.span none (n.childrenAt path)

/-- The first fault found from a stack of nodes to look at. -/
def firstFault? : List (Node × NodePath) → Option SpanFault
  | [] => none
  | (n, path) :: rest =>
    match n.faultAt? path with
    | some fault => some fault
    | none => firstFault? ((n.childrenAt path).reverse ++ rest)
termination_by pending => sizes (pending.map (·.1))
decreasing_by
  simp only [List.map_append, List.map_reverse, map_fst_childrenAt, sizes_append, sizes_reverse,
    List.map_cons, sizes, size_eq n]
  omega

def spanFault? (n : Node) : Option SpanFault := firstFault? [(n, NodePath.root)]

end Node

end SyntaxOutline
