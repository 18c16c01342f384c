import SyntaxOutline.Node
import SyntaxOutline.NodePath.Text

/-! # Listings of trees

A listing has one entry for each node of a tree, in document order. The nodes still to list are on
a stack, the next one on top. Entries may also be given by hand; where a path occurs several times
its last entry counts. -/
namespace SyntaxOutline

/-- Levels stop growing here. -/
def levelLimit : Nat := 65535

structure Entry where
  path : NodePath
  node : Node
  level : Nat
  parent : Option NodePath
  childPaths : List NodePath
deriving Repr

namespace Entry

def hasChildren (e : Entry) : Bool := !e.childPaths.isEmpty

def describePath (path : NodePath) : String := "NodeId(\"" ++ path.text ++ "\")"

/-- The form in which an entry is shown to developers. -/
def describe (e : Entry) : String :=
  let parent := match e.parent with
    | none => "None"
    | some path => "Some(" ++ describePath path ++ ")"
  "FlatEntry \x7b id: " ++ describePath e.path ++ ", level: " ++ toString e.level ++
    ", parent: " ++ parent ++
    ", child_ids: [" ++ ", ".intercalate (e.childPaths.map describePath) ++ "], .. \x7d"

end Entry

/-- A node that is still to be listed. -/
structure Pending where
  node : Node
  path : NodePath
  level : Nat
  parent : Option NodePath

namespace Pending

def entry (p : Pending) : Entry :=
  { path := p.path, node := p.node, level := p.level, parent := p.parent
    childPaths := (p.node.childrenAt p.path).map (·.2) }

def children (p : Pending) : List Pending :=
  (p.node.childrenAt p.path).map fun (node, path) =>
    { node, path, level := min (p.level + 1) levelLimit, parent := some p.path }

theorem map_node_children (p : Pending) : p.children.map (·.node) = p.node.children := by
  rw [← p.node.map_fst_childrenAt p.path]
  simp [children, List.map_map, Function.comp_def]

end Pending

structure Listing where
  entries : List Entry
deriving Repr

namespace Listing

/-- Lists the nodes of a stack, after those already listed, which are given last first. -/
def listStack : List Pending → List Entry → List Entry
  | [], listed => listed.reverse
  | next :: rest, listed => listStack (next.children ++ rest) (next.entry :: listed)
termination_by pending => Node.sizes (pending.map (·.node))
decreasing_by
  simp only [List.map_append, Pending.map_node_children, Node.sizes_append, List.map_cons,
    Node.sizes, Node.size_eq next.node]
  omega

def ofTree : Option Node → Listing
  | none => ⟨[]⟩
  | some n => ⟨listStack [⟨n, NodePath.root, 0, none⟩] []⟩

def paths (l : Listing) : List NodePath := l.entries.map (·.path)

def size (l : Listing) : Nat := l.entries.length

def isEmpty (l : Listing) : Bool := l.entries.isEmpty

def root? (l : Listing) : Option Entry := l.entries.head?

/-- The last entry for a path, with its place in the listing. -/
def find? (l : Listing) (path : NodePath) : Option (Entry × Nat) :=
  l.entries.zipIdx.reverse.find? fun e => e.1.path = path

def get? (l : Listing) (path : NodePath) : Option Entry := (l.find? path).map (·.1)

def position? (l : Listing) (path : NodePath) : Option Nat := (l.find? path).map (·.2)

def contains (l : Listing) (path : NodePath) : Bool := (l.find? path).isSome

/-- Whether the path names an entry with children. -/
def hasChildren (l : Listing) (path : NodePath) : Bool := (l.get? path).any (·.hasChildren)

/-- A path and those listed right after it on deeper levels; none for a path that is not listed. -/
def subtree (l : Listing) (path : NodePath) : List NodePath :=
  match l.find? path with
  | none => []
  | some (entry, position) =>
    let below := (l.entries.drop (position + 1)).takeWhile fun e => entry.level < e.level
    path :: below.map (·.path)

end Listing

end SyntaxOutline
