import SyntaxOutline.Listing
import SyntaxOutline.Proofs.Node.Descent
import SyntaxOutline.Proofs.NodePath.Text

/-! # Listings in document order

The listing of a tree, which is made with a stack, is the preorder listing of the tree: a node, and
then the listings of its children. Its entries are the nodes at the ends of the paths of the tree,
each path once and in ascending order, so the path of an entry leads back to the entry. -/
namespace SyntaxOutline

/-- The entry of a node that has the given path. -/
def Entry.ofNode (n : Node) (path : NodePath) : Entry :=
  { path, node := n, level := min path.depth levelLimit, parent := path.parent?
    childPaths := (List.range n.children.length).map path.child }

theorem Entry.hasChildren_ofNode (n : Node) (path : NodePath) :
    (Entry.ofNode n path).hasChildren = !n.children.isEmpty := by
  rw [Entry.hasChildren, Entry.ofNode, Bool.eq_iff_iff]
  simp

theorem Entry.head?_childPaths_ofNode (n : Node) (path : NodePath) :
    (Entry.ofNode n path).childPaths.head? =
      if (Entry.ofNode n path).hasChildren then some (path.child 0) else none := by
  rw [Entry.hasChildren_ofNode, Entry.ofNode]
  cases n.children with
  | nil => rfl
  | cons child rest =>
    rw [List.length_cons, List.range_succ_eq_map]
    rfl

mutual

/-- The entries of a tree in document order, for a root that has the given path. -/
def Node.preorder : Node → NodePath → List Entry
  | ⟨kind, span, children, attributes, fieldName⟩, path =>
    Entry.ofNode ⟨kind, span, children, attributes, fieldName⟩ path ::
      Node.preorderFrom children path 0

/-- The entries of siblings, the first of which has the given ordinal under its parent. -/
def Node.preorderFrom : List Node → NodePath → Nat → List Entry
  | [], _, _ => []
  | child :: rest, path, ordinal =>
    child.preorder (path.child ordinal) ++ Node.preorderFrom rest path (ordinal + 1)

end

namespace Node

theorem preorderFrom_eq (children : List Node) (path : NodePath) (first : Nat) :
    preorderFrom children path first =
      (children.zipIdx first).flatMap fun c => c.1.preorder (path.child c.2) := by
  induction children generalizing first with
  | nil => rfl
  | cons child rest ih => simp [preorderFrom, ih]

theorem preorder_eq (n : Node) (path : NodePath) :
    n.preorder path =
      Entry.ofNode n path :: (n.childrenAt path).flatMap fun c => c.1.preorder c.2 := by
  cases n with
  | mk kind span children attributes fieldName =>
    rw [preorder, preorderFrom_eq, childrenAt, List.flatMap_map]

end Node

namespace Pending

/-- A node of a tree as it comes onto the stack. -/
def ofNode (n : Node) (path : NodePath) : Pending :=
  ⟨n, path, min path.depth levelLimit, path.parent?⟩

theorem ofNode_root (n : Node) : ofNode n NodePath.root = ⟨n, NodePath.root, 0, none⟩ := rfl

theorem entry_ofNode (n : Node) (path : NodePath) :
    (ofNode n path).entry = Entry.ofNode n path := by
  simp [entry, ofNode, Entry.ofNode, Node.map_snd_childrenAt]

theorem children_ofNode (n : Node) (path : NodePath) :
    (ofNode n path).children = (n.childrenAt path).map fun c => ofNode c.1 c.2 := by
  refine List.map_congr_left fun c hc => ?_
  obtain ⟨ordinal, _, hpath⟩ := Node.mem_childrenAt.1 hc
  have hlevel : min (min path.depth levelLimit + 1) levelLimit =
      min (path.depth + 1) levelLimit := by omega
  simp [ofNode, hpath, NodePath.depth_child, NodePath.parent?_child, hlevel]

end Pending

namespace Listing

/-- The stack is worked off node by node, each with its whole tree. -/
theorem listStack_ofNode (pending : List (Node × NodePath)) (listed : List Entry) :
    listStack (pending.map fun c => Pending.ofNode c.1 c.2) listed =
      listed.reverse ++ pending.flatMap fun c => c.1.preorder c.2 := by
  induction hsize : Node.sizes (pending.map (·.1)) using Nat.strongRecOn
    generalizing pending listed with
  | ind size ih =>
    cases pending with
    | nil => simp [listStack]
    | cons next rest =>
      have hsmaller : Node.sizes ((next.1.childrenAt next.2 ++ rest).map (·.1)) < size := by
        rw [← hsize, List.map_append, Node.map_fst_childrenAt, Node.sizes_append, List.map_cons,
          Node.sizes, Node.size_eq next.1]
        omega
      rw [List.map_cons, listStack, Pending.entry_ofNode, Pending.children_ofNode,
        ← List.map_append, ih _ hsmaller _ _ rfl]
      simp [Node.preorder_eq next.1]

/-- The listing made with the stack is the preorder listing. -/
theorem entries_ofTree (n : Node) : (ofTree (some n)).entries = n.preorder NodePath.root := by
  have h := listStack_ofNode [(n, NodePath.root)] []
  simp only [List.map_cons, List.map_nil, Pending.ofNode_root] at h
  simp [ofTree, h]

theorem paths_sample :
    (ofTree (some Node.sample)).paths = [⟨[]⟩, ⟨[0]⟩, ⟨[1]⟩, ⟨[1, 0]⟩] := by
  rw [paths, entries_ofTree]
  rfl

end Listing

end SyntaxOutline
