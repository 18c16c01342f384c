import SyntaxOutline.Expansion

/-! # Rows of an outline

An entry is shown unless its parent is hidden or is a collapsed node. The walk over a listing keeps
the paths whose children are not shown. Steps go along the list of visible paths, in which the first
place of a path counts, and down to the first child of an expanded node. -/
namespace SyntaxOutline

structure Row where
  path : NodePath
  level : Nat
  hasChildren : Bool
  isExpanded : Bool
deriving DecidableEq, Repr

/-- The entries that are shown, given the paths whose children are not. -/
def visibleFrom (expanded : Expansion) : List NodePath → List Entry → List Entry
  | _, [] => []
  | closed, e :: rest =>
    if e.parent.any (· ∈ closed) then visibleFrom expanded (e.path :: closed) rest
    else if e.hasChildren && !expanded.contains e.path then
      e :: visibleFrom expanded (e.path :: closed) rest
    else e :: visibleFrom expanded closed rest

namespace Listing

def visible (l : Listing) (expanded : Expansion) : List Entry := visibleFrom expanded [] l.entries

def visiblePaths (l : Listing) (expanded : Expansion) : List NodePath :=
  (l.visible expanded).map (·.path)

def rows (l : Listing) (expanded : Expansion) : List Row :=
  (l.visible expanded).map fun e =>
    { path := e.path, level := e.level, hasChildren := e.hasChildren
      isExpanded := e.hasChildren && expanded.contains e.path }

end Listing

theorem map_path_rows (l : Listing) (expanded : Expansion) :
    (l.rows expanded).map (·.path) = l.visiblePaths expanded := by
  simp [Listing.rows, Listing.visiblePaths]

/-- The path right above in a list of rows. -/
def previousPath? (path : NodePath) (visible : List NodePath) : Option NodePath :=
  match visible.idxOf? path with
  | some (index + 1) => visible[index]?
  | _ => none

/-- The path right below in a list of rows. -/
def nextPath? (path : NodePath) (visible : List NodePath) : Option NodePath :=
  match visible.idxOf? path with
  | some index => visible[index + 1]?
  | none => none

/-- The first child of an expanded node. -/
def firstChildPath? (l : Listing) (expanded : Expansion) (path : NodePath) : Option NodePath :=
  match l.get? path with
  | some entry => if expanded.contains path then entry.childPaths.head? else none
  | none => none

end SyntaxOutline
